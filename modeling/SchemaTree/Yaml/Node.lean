import SchemaTree.Yaml.Token
import SchemaTree.Value.Entries

/-!
The nodes of a YAML text: scalars, sequences and mappings, as its tokens nest them. An alias is the
node of its anchor, and both are one container in the value.
-/

namespace SchemaTree.Yaml

/-- A node. The place of a collection, which tells it from the others of its text, is the number of
tokens from its start to the end. -/
inductive Node where
  | plain (text : String)
  | quoted (text : String)
  | sequence (place : Nat) (items : List Node)
  | mapping (place : Nat) (entries : List (Node × Node))

namespace Node

abbrev Anchors := List (List Char × Node)

abbrev Reader := StateT (List Token × Anchors) Option

private def peek : Reader (Option Token) := do return (← get).1.head?

private def place : Reader Nat := do return (← get).1.length

private def drop : Reader Unit := modify fun s => (s.1.tail, s.2)

private def fails {α : Type} : Reader α := fun _ => none

private def expect (t : Token) : Reader Unit := do
  if (← peek) = some t then drop else fails

def absent : Node := .plain ""

private def isOneOf (ts : List Token) : Option Token → Bool
  | some t => ts.contains t
  | none => true

private def anchor? : Reader (Option (List Char)) := do
  match ← peek with
  | some (.anchor name) =>
    drop
    return some name
  | _ => return none

inductive Style where
  | flow
  | block
  /-- A block, or a sequence as far out as the mapping it stands in. -/
  | inMapping
  deriving DecidableEq

mutual

def node (style : Style) : (fuel : Nat) → Reader Node
  | 0 => fails
  | fuel + 1 => do
    if let some (.alias name) ← peek then
      drop
      match (← get).2.lookup name with
      | some n => return n
      | none => fails
    else
      let name ← anchor?
      if let some name := name then
        if ((← get).2.lookup name).isSome then fails
      let start ← place
      let n ← match ← peek with
        | some (.plain text) => do
          drop
          pure (.plain (String.ofList text))
        | some (.quoted text) => do
          drop
          pure (.quoted (String.ofList text))
        | some .flowSequence => do
          drop
          pure (.sequence start (← flowItems fuel true))
        | some .flowMapping => do
          drop
          pure (.mapping start (← flowEntries fuel true))
        | some .blockSequence => do
          if style = .flow then fails
          drop
          let items ← blockItems fuel [.item, .blockEnd]
          expect .blockEnd
          pure (.sequence start items)
        | some .blockMapping => do
          if style = .flow then fails
          drop
          let entries ← blockEntries fuel
          expect .blockEnd
          pure (.mapping start entries)
        | some .item => do
          if style ≠ .inMapping then fails
          pure (.sequence start (← blockItems fuel [.item, .key, .value, .blockEnd]))
        | _ => if name.isSome then pure absent else fails
      if let some name := name then
        modify fun s => (s.1, (name, n) :: s.2)
      return n

def nodeUnless (style : Style) (ends : List Token) : (fuel : Nat) → Reader Node
  | 0 => fails
  | fuel + 1 => do
    if isOneOf ends (← peek) then return absent else node style fuel

def blockItems : (fuel : Nat) → (ends : List Token) → Reader (List Node)
  | 0, _ => fails
  | fuel + 1, ends => do
    if (← peek) = some .item then
      drop
      let n ← nodeUnless .block ends fuel
      return n :: (← blockItems fuel ends)
    else return []

def blockEntries : (fuel : Nat) → Reader (List (Node × Node))
  | 0 => fails
  | fuel + 1 => do
    if (← peek) = some .key then
      drop
      let k ← nodeUnless .inMapping [.key, .value, .blockEnd] fuel
      if (← peek) = some .value then
        drop
        let v ← nodeUnless .inMapping [.key, .value, .blockEnd] fuel
        return (k, v) :: (← blockEntries fuel)
      else return (k, absent) :: (← blockEntries fuel)
    else return []

/-- Reads the items of a sequence in brackets and the closing one. An entry among them is a mapping
of its own. -/
def flowItems : (fuel : Nat) → (first : Bool) → Reader (List Node)
  | 0, _ => fails
  | fuel + 1, first => do
    if (← peek) = some .flowSequenceEnd then
      drop
      return []
    if !first then expect .comma
    if (← peek) = some .flowSequenceEnd then
      drop
      return []
    let start ← place
    let n ← if (← peek) = some .key then do
        drop
        let k ← nodeUnless .flow [.value, .comma, .flowSequenceEnd] fuel
        if (← peek) = some .value then
          drop
          let v ← nodeUnless .flow [.comma, .flowSequenceEnd] fuel
          pure (.mapping start [(k, v)])
        else pure (.mapping start [(k, absent)])
      else node .flow fuel
    return n :: (← flowItems fuel false)

def flowEntries : (fuel : Nat) → (first : Bool) → Reader (List (Node × Node))
  | 0, _ => fails
  | fuel + 1, first => do
    if (← peek) = some .flowMappingEnd then
      drop
      return []
    if !first then expect .comma
    if (← peek) = some .flowMappingEnd then
      drop
      return []
    let e ← if (← peek) = some .key then do
        drop
        let k ← nodeUnless .flow [.value, .comma, .flowMappingEnd] fuel
        if (← peek) = some .value then
          drop
          let v ← nodeUnless .flow [.comma, .flowMappingEnd] fuel
          pure (k, v)
        else pure (k, absent)
      else do pure (← node .flow fuel, absent)
    return e :: (← flowEntries fuel false)

end

def document (fuel : Nat) : Reader Node := do
  let atEnd (t : Option Token) : Bool := isOneOf [.documentStart, .documentEnd] t
  let n ← match ← peek with
    | none => pure absent
    | some .documentStart => do
      drop
      if atEnd (← peek) then pure absent else node .block fuel
    | some _ => node .block fuel
  let rec ends : Nat → Reader Unit
    | 0 => fails
    | fuel + 1 => do
      if (← peek) = some .documentEnd then
        drop
        ends fuel
      else if (← peek).isSome then fails
  ends fuel
  return n

def ofTokens? (ts : List Token) : Option Node :=
  ((document (3 * ts.length + 3)).run (ts, [])).map (·.1)

mutual

/-- The value of a node. A key has to be one that a mapping can have; a repeated key keeps its first
place and its last value. -/
def value? {κ : Type} [Inspect κ] : Node → Option (Value κ)
  | .plain text => plainValue? text
  | .quoted text => some (.str text)
  | .sequence start items => (values? items).map (.list (.shared start))
  | .mapping start es => (entries? es []).map (.mapping (.shared start))

def values? {κ : Type} [Inspect κ] : List Node → Option (List (Value κ))
  | [] => some []
  | n :: ns => do return (← n.value?) :: (← values? ns)

def entries? {κ : Type} [Inspect κ] :
    List (Node × Node) → Entries κ → Option (Entries κ)
  | [], done => some done
  | (k, v) :: es, done => do
    let key ← match k with
      | .plain "=" => some (.str "=")
      | k => k.value?
    if !key.canBeKey then none
    entries? es (Entries.insert key (← v.value?) done)

end

end Node

def load? {κ : Type} [Inspect κ] (text : String) : Option (Value κ) := do
  let n ← Node.ofTokens? (← Token.scan text)
  n.value?

end SchemaTree.Yaml
