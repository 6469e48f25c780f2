import Motif.Document
import Motif.Pattern.Query

set_option autoImplicit false
namespace Motif

open Document (tagged record strings ofOption required? optional? strings? string? bool? listOf?)

namespace Relation

def toDocument : Relation → Document
  | extent cls => tagged "Class" (.text cls)
  | feature name => tagged "Feature" (.text name)

def ofDocument? (d : Document) : Option Relation :=
  match d.alternative? with
  | some ("Class", .text cls) => some (extent cls)
  | some ("Feature", .text name) => some (feature name)
  | _ => none

end Relation

namespace Constraint

def toDocument : Constraint → Document
  | holds r xs => tagged "TypeConstraint" (record [("key", r.toDocument), ("variables", strings xs)])
  | find q xs => tagged "PatternCall"
      (record [("query", .text q), ("arguments", strings xs), ("negative", .bool false)])
  | lacks q xs => tagged "PatternCall"
      (record [("query", .text q), ("arguments", strings xs), ("negative", .bool true)])
  | unequal l r => tagged "Inequality" (record [("left", .text l), ("right", .text r)])
  | equal l r => tagged "Equality" (record [("left", .text l), ("right", .text r)])
  | constant x v => tagged "ConstantValue" (record [("variable", .text x), ("value", v.toDocument)])
  | count q xs result => tagged "PatternMatchCounter"
      (record [("query", .text q), ("arguments", strings xs), ("result", .text result)])
  | aggregate op q xs aggregated result => tagged "Aggregate"
      (record [("operator", .text op), ("query", .text q), ("arguments", strings xs),
        ("aggregated", .text aggregated), ("result", .text result)])
  | check e xs => tagged "ExpressionEvaluation"
      (record [("evaluator", .text e), ("inputs", strings xs), ("output", .null)])
  | eval e xs output => tagged "ExpressionEvaluation"
      (record [("evaluator", .text e), ("inputs", strings xs), ("output", .text output)])
  | closure q source target => tagged "TransitiveClosure"
      (record [("query", .text q), ("source", .text source), ("target", .text target)])

def ofFields? (tag : String) (content : Document) : Option Constraint :=
  let fields (names : List String) := content.fields? names
  match tag with
  | "TypeConstraint" => do
    let [key, vars] ← fields ["key", "variables"] | none
    return holds (← required? Relation.ofDocument? key) (← required? strings? vars)
  | "PatternCall" => do
    let [query, arguments, negative] ← fields ["query", "arguments", "negative"] | none
    let q ← required? string? query
    let xs ← required? strings? arguments
    return if ← required? bool? negative then lacks q xs else find q xs
  | "Inequality" => do
    let [left, right] ← fields ["left", "right"] | none
    return unequal (← required? string? left) (← required? string? right)
  | "Equality" => do
    let [left, right] ← fields ["left", "right"] | none
    return equal (← required? string? left) (← required? string? right)
  | "ConstantValue" => do
    let [x, v] ← fields ["variable", "value"] | none
    return constant (← required? string? x) (← required? Value.ofDocument? v)
  | "PatternMatchCounter" => do
    let [query, arguments, result] ← fields ["query", "arguments", "result"] | none
    return count (← required? string? query) (← required? strings? arguments)
      (← required? string? result)
  | "Aggregate" => do
    let [operator, query, arguments, aggregated, result] ←
      fields ["operator", "query", "arguments", "aggregated", "result"] | none
    return aggregate (← required? string? operator) (← required? string? query)
      (← required? strings? arguments) (← required? string? aggregated) (← required? string? result)
  | "ExpressionEvaluation" => do
    let [evaluator, inputs, output] ← fields ["evaluator", "inputs", "output"] | none
    let e ← required? string? evaluator
    let xs ← required? strings? inputs
    match ← optional? string? output with
    | none => return check e xs
    | some result => return eval e xs result
  | "TransitiveClosure" => do
    let [query, source, target] ← fields ["query", "source", "target"] | none
    return closure (← required? string? query) (← required? string? source)
      (← required? string? target)
  | _ => none

def ofDocument? (d : Document) : Option Constraint := do
  let (tag, content) ← d.alternative?
  ofFields? tag content

end Constraint

namespace Body

def toDocument (b : Body) : Document :=
  record [("parameters", strings b.parameters),
    ("constraints", .list (b.constraints.map Constraint.toDocument))]

def ofDocument? (d : Document) : Option Body := do
  let [parameters, constraints] ← d.members? ["parameters", "constraints"] | none
  return ⟨← required? strings? parameters, ← required? (listOf? Constraint.ofDocument?) constraints⟩

end Body

def Kind.ofDocument? (d : Document) : Option Kind := (d.tag? Document.isNull).bind Kind.ofName?

def Backend.ofName? (s : String) : Option Backend :=
  [Backend.rete, Backend.localSearch].find? fun b => b.name == s

def Backend.ofDocument? (d : Document) : Option Backend :=
  (d.tag? Document.isNull).bind Backend.ofName?

namespace Parameter

def toDocument (p : Parameter) : Document :=
  record [("name", .text p.name), ("kind", ofOption (fun k => .text k.name) p.kind)]

def ofDocument? (d : Document) : Option Parameter := do
  let [name, kind] ← d.members? ["name", "kind"] | none
  return ⟨← required? string? name, ← optional? Kind.ofDocument? kind⟩

end Parameter

namespace Query

def toDocument (q : Query) : Document :=
  record [("name", .text q.name), ("parameters", .list (q.parameters.map Parameter.toDocument)),
    ("bodies", .list (q.bodies.map Body.toDocument)),
    ("backend", ofOption (fun b => .text b.name) q.backend)]

def ofDocument? (d : Document) : Option Query := do
  let [name, parameters, bodies, backend] ←
    d.members? ["name", "parameters", "bodies", "backend"] | none
  return ⟨← required? string? name, ← required? (listOf? Parameter.ofDocument?) parameters,
    ← required? (listOf? Body.ofDocument?) bodies, ← optional? Backend.ofDocument? backend⟩

end Query
end Motif
