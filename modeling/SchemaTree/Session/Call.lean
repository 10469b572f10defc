import SchemaTree.Session.Inspect
import SchemaTree.Session.Memory

/-!
Calls in a session. Objects of the caller do what the caller says; a compiled schema that is called
as a rule checks the value and answers with its verdict. The calls that such a check makes stand in
the record in the place of the call of the compiled schema itself.
-/

namespace SchemaTree

variable {σ : Type} [Caller σ]

namespace Value

def toSchemaArg [Inspect (Object σ)] : Value (Object σ) → SchemaArg
  | .str name => .named name
  | .object (.node n) => .node n
  | v => .other v.kind

def toOptionsArg : Value (Object σ) → OptionsArg (Object σ)
  | .object (.options _ o) => .options o
  | v => .value v

def own? : Value (Object σ) → Option σ
  | .object (.own _ c) => some c
  | _ => none

def toSource [Inspect (Object σ)] (builder : σ → Option (NodeId → Plan (Object σ)))
    (v : Value (Object σ)) : Source (Object σ) :=
  match v with
  | .str name => .named name
  | .object (.node n) => .node n
  | v =>
    match v.own?.bind builder with
    | some body => .plan body
    | none => if v.isCallable then .mismatched else .unfit v.kind

/-- The checks that a value puts in place of the ones of this library. A value that counts as false
replaces none; any other that has no checks to offer fails the first one. -/
def toPipeline [Inspect (Object σ)] (w : Wording (Object σ)) (v : Value (Object σ)) :
    Pipeline (Object σ) :=
  let refusing (f : Fault (Object σ)) : Pipeline (Object σ) :=
    fun _ => some fun _ _ _ _ _ => throw f
  match v.own?.bind (Caller.pipeline w) with
  | some checks => checks
  | none =>
    match v.isTrue with
    | .ok false => Pipeline.standard
    | .ok true => refusing (.misuse .noSuchPart)
    | .error f => refusing f

def toRegistry : Value (Object σ) → Except (Fault (Object σ)) RegistryId
  | .object (.registry _ r) => .ok r
  | .null => .ok Heap.defaultRegistry
  | _ => .error (.misuse .noSuchPart)

end Value

def Fault.toObject [Inspect (Object σ)] (f : Fault (Object σ)) : Object σ :=
  .problem .fresh (.ofFault f)

def Verdict.toObject [Inspect (Object σ)] (v : Verdict (Object σ)) : Object σ :=
  let error : Value (Object σ) := match v.error with
    | some f => .object f.toObject
    | none => .null
  let failure : Value (Object σ) := match v.resultError with
    | some e => .object (Fault.toObject (.result e))
    | none => .null
  .verdict .fresh error v.valid failure

def Object.ofSignal (signal : Value (Object σ)) : Object σ :=
  match signal with
  | .null | .bool true => .verdict .fresh .null true .null
  | .object (.problem _ { detail := .result _, .. }) => .verdict .fresh .null false signal
  | _ => .verdict .fresh signal false .null

namespace Session

variable (s : Session σ)

def verifyCompiled [Inspect (Object σ)] (host : Host (Object σ)) (root : NodeId)
    (options pipeline value : Value (Object σ)) :
    Run (Event (Object σ)) (Object σ) (Verdict (Object σ)) :=
  verify host s.wording s.heap (.node root) value options.toOptionsArg
    (pipeline.toPipeline s.wording)

def hostTo [Inspect (Object σ)] : (depth : Nat) → Host (Object σ)
  | 0 => { rule := fun _ => none, mapper := fun _ => none }
  | depth + 1 => {
      rule := fun
        | .own _ c => Caller.rule s.wording c
        | .compiled _ root options pipeline => some fun value =>
          (s.verifyCompiled (hostTo depth) root options pipeline value).outcome.map
            fun v => .object v.toObject
        | _ => none
      mapper := fun
        | .own _ c => Caller.mapper c
        | _ => none }

/-- What objects do when they are called. Rules are older than the schemas compiled from them. -/
def host [Inspect (Object σ)] : Host (Object σ) := s.hostTo (s.next + 1)

def callsTo [Inspect (Object σ)] : (depth : Nat) → Event (Object σ) → List (Event (Object σ))
  | depth + 1, .rule (.compiled _ root options pipeline) value =>
    (s.verifyCompiled (s.hostTo depth) root options pipeline value).events.flatMap
      (callsTo depth)
  | _, e => [e]

def calls [Inspect (Object σ)] (e : Event (Object σ)) : List (Event (Object σ)) :=
  s.callsTo (s.next + 1) e

end Session

end SchemaTree
