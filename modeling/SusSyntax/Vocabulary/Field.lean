/-!
The fields: the roles that a child can have in its parent.

Fields are numbered from 1 in the order of `Field.all`; 0 stands for no field. A field is found by
its exact name (`Field.ofName?_eq_some_iff`).
-/

namespace SusSyntax

/-- The role of a child in its parent. -/
inductive Field where
  | arguments | arr | arrIdx | assignLeft | assignValue | block | condition | constType
  | content | declarationModifiers | elseBlock | exprOrDecl | externMarker | forDecl | rangeFrom
  | inputs | interfacePorts | ioPortModifiers | isGlobalPath | item | latencySpecifier | left
  | name | namespaceList | objectType | operator | outputs | right | statementType
  | templateArgs | templateDeclarationArguments | thenBlock | rangeTo | type | typeArg | valArg
  | writeModifiers
deriving DecidableEq, Repr

namespace Field

/-- Every field, in order of its number. -/
def all : List Field :=
  [.arguments, .arr, .arrIdx, .assignLeft, .assignValue, .block, .condition, .constType,
   .content, .declarationModifiers, .elseBlock, .exprOrDecl, .externMarker, .forDecl,
   .rangeFrom, .inputs, .interfacePorts, .ioPortModifiers, .isGlobalPath, .item,
   .latencySpecifier, .left, .name, .namespaceList, .objectType, .operator, .outputs, .right,
   .statementType, .templateArgs, .templateDeclarationArguments, .thenBlock, .rangeTo, .type,
   .typeArg, .valArg, .writeModifiers]

/-- How a field is called. -/
def label : Field → String
  | .arguments => "arguments"
  | .arr => "arr"
  | .arrIdx => "arr_idx"
  | .assignLeft => "assign_left"
  | .assignValue => "assign_value"
  | .block => "block"
  | .condition => "condition"
  | .constType => "const_type"
  | .content => "content"
  | .declarationModifiers => "declaration_modifiers"
  | .elseBlock => "else_block"
  | .exprOrDecl => "expr_or_decl"
  | .externMarker => "extern_marker"
  | .forDecl => "for_decl"
  | .rangeFrom => "from"
  | .inputs => "inputs"
  | .interfacePorts => "interface_ports"
  | .ioPortModifiers => "io_port_modifiers"
  | .isGlobalPath => "is_global_path"
  | .item => "item"
  | .latencySpecifier => "latency_specifier"
  | .left => "left"
  | .name => "name"
  | .namespaceList => "namespace_list"
  | .objectType => "object_type"
  | .operator => "operator"
  | .outputs => "outputs"
  | .right => "right"
  | .statementType => "statement_type"
  | .templateArgs => "template_args"
  | .templateDeclarationArguments => "template_declaration_arguments"
  | .thenBlock => "then_block"
  | .rangeTo => "to"
  | .type => "type"
  | .typeArg => "type_arg"
  | .valArg => "val_arg"
  | .writeModifiers => "write_modifiers"

/-- The number of a field, from 1. -/
def id (f : Field) : Nat :=
  f.ctorIdx + 1

/-- The field of a number; 0 is the number of none. -/
def ofId? : Nat → Option Field
  | 0 => none
  | n + 1 => all[n]?

/-- The field of a name. -/
def ofName? (s : String) : Option Field :=
  all.find? (·.label == s)

/-! ### Numbers and names -/

theorem mem_all (f : Field) : f ∈ all := by
  cases f <;> decide

@[simp] theorem ofId?_id (f : Field) : ofId? f.id = some f := by
  cases f <;> rfl

@[simp] theorem ofName?_label (f : Field) : ofName? f.label = some f := by
  cases f <;> decide

theorem ofName?_eq_some_iff {s : String} {f : Field} : ofName? s = some f ↔ f.label = s := by
  constructor
  · intro h
    have found := List.find?_some h
    exact eq_of_beq found
  · rintro rfl
    exact ofName?_label f

theorem ofId?_eq_some_iff {n : Nat} {f : Field} : ofId? n = some f ↔ f.id = n := by
  constructor
  · intro h
    cases n with
    | zero => cases h
    | succ n =>
      have numbered : ∀ i, ∀ inside : i < all.length, all[i].id = i + 1 := by decide
      obtain ⟨inside, rfl⟩ := List.getElem?_eq_some_iff.mp h
      exact numbered n inside
  · rintro rfl
    exact ofId?_id f

end Field

end SusSyntax
