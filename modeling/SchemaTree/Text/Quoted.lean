import SchemaTree.Text.Printable

/-!
Quoted text. A text stands between single quotes, unless it holds one and no double quote; the
quote itself, the backslash and what cannot be printed are escaped.
-/

namespace SchemaTree.Text

def quoteFor (codes : List Nat) : Char :=
  if codes.contains 39 && !codes.contains 34 then '"' else '\''

def hex : (width : Nat) → Nat → List Char
  | 0, _ => []
  | width + 1, n => hex width (n / 16) ++ [Nat.digitChar (n % 16)]

/-- The two-character escapes that text and bytes have in common. -/
def shortEscape? (quote : Char) (code : Nat) : Option (List Char) :=
  if code = quote.toNat then some ['\\', quote]
  else match code with
    | 92 => some ['\\', '\\']
    | 10 => some ['\\', 'n']
    | 13 => some ['\\', 'r']
    | 9 => some ['\\', 't']
    | _ => none

def escape (quote c : Char) : List Char :=
  match shortEscape? quote c.toNat with
  | some cs => cs
  | none =>
    if isPrintable c then [c]
    else if c.toNat < 0x100 then '\\' :: 'x' :: hex 2 c.toNat
    else if c.toNat < 0x10000 then '\\' :: 'u' :: hex 4 c.toNat
    else '\\' :: 'U' :: hex 8 c.toNat

def quoted (text : String) : String :=
  let quote := quoteFor (text.toList.map Char.toNat)
  String.ofList (quote :: text.toList.flatMap (escape quote) ++ [quote])

def escapeOctet (quote : Char) (octet : UInt8) : List Char :=
  match shortEscape? quote octet.toNat with
  | some cs => cs
  | none =>
    if 0x20 ≤ octet.toNat && octet.toNat ≤ 0x7e then [Char.ofNat octet.toNat]
    else '\\' :: 'x' :: hex 2 octet.toNat

def quotedBytes (octets : List UInt8) : String :=
  let quote := quoteFor (octets.map UInt8.toNat)
  String.ofList ('b' :: quote :: octets.flatMap (escapeOctet quote) ++ [quote])

end SchemaTree.Text
