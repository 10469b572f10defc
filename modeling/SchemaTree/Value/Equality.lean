import SchemaTree.Number.Binary
import SchemaTree.Value.Inspect

/-!
When two values are one, and when they are equal: truth values, integers and floats by the number
they stand for, arrays item by item, mappings whatever the order of their keys. Inside a container
a value also matches itself, which matters for a number that is no number.
-/

namespace SchemaTree.Value

variable {κ : Type}

def binary? : Value κ → Option Binary
  | .bool b => some (.ofInt (if b then 1 else 0))
  | .int n => some (.ofInt n)
  | .float _ t => Binary.ofText? t
  | _ => none

variable [Inspect κ]

def asText : Value κ → Option String
  | .str t => some t
  | .object o => Inspect.asText o
  | _ => none

/-- Whether two values are one. Scalars are one if they are equal, but for floats, which have a mark
as containers do. The tuple without items is one. -/
def identical : Value κ → Value κ → Bool
  | .null, .null | .missing, .missing => true
  | .bool a, .bool b => a == b
  | .int a, .int b => a == b
  | .str a, .str b => a == b
  | .bytes a, .bytes b => a == b
  | .float a _, .float b _ => a.isSame b
  | .list a _, .list b _ => a.isSame b
  | .tuple a xs, .tuple b ys => a.isSame b || (xs.isEmpty && ys.isEmpty)
  | .mapping a _, .mapping b _ => a.isSame b
  | .invalid a .., .invalid b .. => a.isSame b
  | .object a, .object b => Inspect.identical a b
  | _, _ => false

mutual

def same : Value κ → Value κ → Bool
  | .null, .null | .missing, .missing => true
  | .str s, .str t => s == t
  | .bytes s, .bytes t => s == t
  | .list _ xs, .list _ ys => sameAll xs ys
  | .tuple _ xs, .tuple _ ys => sameAll xs ys
  | .mapping _ es, .mapping _ fs => es.length == fs.length && sameEntries es fs
  | .invalid _ n p, .invalid _ m q =>
    (n.identical m || n.same m) && (p.identical q || p.same q)
  | .str s, .object p => Inspect.asText p == some s
  | .object o, .str t => Inspect.asText o == some t
  | .object o, .object p =>
    match Inspect.asText o, Inspect.asText p with
    | none, none => Inspect.same o p
    | s, t => s == t
  | .float _ s, .float _ t =>
    match Binary.ofText? s, Binary.ofText? t with
    | some a, some b => a.same b
    | _, _ => s == t && s != "nan"
  | v, w =>
    match v.binary?, w.binary? with
    | some a, some b => a.same b
    | _, _ => false
termination_by structural v => v

def sameAll : List (Value κ) → List (Value κ) → Bool
  | [], [] => true
  | x :: xs, y :: ys => (x.identical y || x.same y) && sameAll xs ys
  | _, _ => false
termination_by structural xs => xs

def sameEntries : Entries κ → Entries κ → Bool
  | [], _ => true
  | (k, v) :: es, fs =>
    fs.any (fun f =>
      (k.identical f.1 || k.same f.1) && (v.identical f.2 || v.same f.2)) && sameEntries es fs
termination_by structural es => es

end

def agrees (v w : Value κ) : Bool := v.identical w || v.same w

theorem canBeKey_of_asText {v : Value κ} {t : String} (h : v.asText = some t) :
    v.canBeKey = true := by
  cases v with
  | str n => rfl
  | object o => exact Inspect.canBeKey_of_asText h
  | _ => cases h

theorem str_agrees_iff {n : String} {k : Value κ} :
    (Value.str n).agrees k = true ↔ k.asText = some n := by
  cases k with
  | str m => simpa [agrees, identical, same, asText] using eq_comm
  | _ => simp [agrees, identical, same, asText, binary?]

theorem agrees_str_iff {n : String} {k : Value κ} :
    k.agrees (.str n) = true ↔ k.asText = some n := by
  cases k <;> simp [agrees, identical, same, asText, binary?]

theorem agrees_of_asText {v w : Value κ} {n : String} (hv : v.asText = some n)
    (hw : w.asText = some n) : v.agrees w = true := by
  cases v with
  | str m =>
      obtain rfl : m = n := Option.some.inj hv
      exact str_agrees_iff.mpr hw
  | object o =>
      have ho : Inspect.asText o = some n := hv
      cases w with
      | str m =>
          obtain rfl : m = n := Option.some.inj hw
          exact agrees_str_iff.mpr hv
      | object p =>
          have hp : Inspect.asText p = some n := hw
          simp [agrees, same, ho, hp]
      | _ => cases hw
  | _ => cases hv

theorem asText_of_agrees {v w : Value κ} (h : v.agrees w = true) : v.asText = w.asText := by
  cases v with
  | str n => exact (str_agrees_iff.mp h).symm
  | object o =>
      cases w with
      | str n => exact agrees_str_iff.mp h
      | object p =>
          rcases Bool.or_eq_true_iff.mp h with h | h
          · exact Inspect.asText_of_identical h
          · simp only [same] at h
            simp only [asText]
            split at h
            · rw [‹Inspect.asText o = none›, ‹Inspect.asText p = none›]
            · exact beq_iff_eq.mp h
      | _ => simp [agrees, identical, same, binary?] at h
  | _ =>
      cases w with
      | str n => simp [agrees, identical, same, binary?] at h
      | object p => simp [agrees, identical, same, binary?] at h
      | _ => rfl

end SchemaTree.Value
