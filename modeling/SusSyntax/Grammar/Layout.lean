import SusSyntax.Vocabulary.Field

/-!
Layouts: which children of a node have which field.

A rule that is written in several ways has a layout for each. Children are counted without extras.
A slot either gives its field to the child (`own`), or says that the child only groups and that
some of its own children have the field (`within`). The slots of a layout stand in the order of
the fields.
-/

namespace SusSyntax.Grammar

/-- A field of a child, by the number of the child. -/
structure Slot where
  field : Field
  child : Nat
  inherited : Bool
deriving DecidableEq, Repr

namespace Slot

/-- The child has the field. -/
def own (field : Field) (child : Nat) : Slot :=
  ⟨field, child, false⟩

/-- Children of the child have the field. -/
def within (field : Field) (child : Nat) : Slot :=
  ⟨field, child, true⟩

end Slot

namespace Layout

open Slot

/-- The slots of every layout, by number; number 0 is the layout without fields. -/
def all : Array (List Slot) := #[
  /-  0 -/ [],
  /-  1 -/ [own .item 0],
  /-  2 -/ [own .constType 1],
  /-  3 -/ [own .namespaceList 0],
  /-  4 -/ [own .item 0, within .item 1],
  /-  5 -/ [own .item 1],
  /-  6 -/ [own .block 2, own .name 1, own .objectType 0],
  /-  7 -/ [own .isGlobalPath 0, own .namespaceList 1],
  /-  8 -/ [own .arr 0, own .arrIdx 1],
  /-  9 -/ [own .namespaceList 0, own .templateArgs 1],
  /- 10 -/ [within .item 0, within .item 1],
  /- 11 -/ [own .item 1, within .item 2],
  /- 12 -/ [own .block 3, own .externMarker 0, own .name 2, own .objectType 1],
  /- 13 -/ [own .name 0],
  /- 14 -/ [own .exprOrDecl 0],
  /- 15 -/ [within .item 0],
  /- 16 -/ [own .block 3, own .name 1, own .objectType 0, own .templateDeclarationArguments 2],
  /- 17 -/ [own .isGlobalPath 0, own .namespaceList 1, own .templateArgs 2],
  /- 18 -/ [own .block 4, own .externMarker 0, own .name 2, own .objectType 1,
    own .templateDeclarationArguments 3],
  /- 19 -/ [own .name 1, own .type 0],
  /- 20 -/ [own .name 1],
  /- 21 -/ [own .operator 0, own .right 1],
  /- 22 -/ [own .exprOrDecl 1, own .writeModifiers 0],
  /- 23 -/ [own .arguments 1, own .name 0],
  /- 24 -/ [own .content 1],
  /- 25 -/ [own .ioPortModifiers 0, own .name 2, own .type 1],
  /- 26 -/ [own .declarationModifiers 0, own .name 2, own .type 1],
  /- 27 -/ [own .latencySpecifier 2, own .name 1, own .type 0],
  /- 28 -/ [own .item 2],
  /- 29 -/ [own .condition 1, own .statementType 0, own .thenBlock 2],
  /- 30 -/ [own .interfacePorts 2, own .name 1],
  /- 31 -/ [own .assignLeft 0, own .assignValue 2],
  /- 32 -/ [own .left 0, own .operator 1, own .right 2],
  /- 33 -/ [own .left 0, own .name 2],
  /- 34 -/ [own .name 0, own .valArg 2],
  /- 35 -/ [own .declarationModifiers 1, own .ioPortModifiers 0, own .name 3, own .type 2],
  /- 36 -/ [own .ioPortModifiers 0, own .latencySpecifier 3, own .name 2, own .type 1],
  /- 37 -/ [own .declarationModifiers 0, own .latencySpecifier 3, own .name 2, own .type 1],
  /- 38 -/ [own .item 2, within .item 3],
  /- 39 -/ [within .outputs 1],
  /- 40 -/ [own .inputs 1],
  /- 41 -/ [own .name 0, own .typeArg 3],
  /- 42 -/ [own .declarationModifiers 1, own .ioPortModifiers 0, own .latencySpecifier 4,
    own .name 3, own .type 2],
  /- 43 -/ [own .condition 1, own .elseBlock 4, own .statementType 0, own .thenBlock 2],
  /- 44 -/ [own .outputs 1],
  /- 45 -/ [own .inputs 1, within .outputs 2],
  /- 46 -/ [within .outputs 2],
  /- 47 -/ [own .inputs 2],
  /- 48 -/ [own .outputs 2],
  /- 49 -/ [own .inputs 2, within .outputs 3],
  /- 50 -/ [own .block 6, own .forDecl 1, own .rangeFrom 3, own .rangeTo 5]]

/-- The slots of a layout. -/
def slots (n : Nat) : List Slot :=
  all[n]?.getD []

/-- The field that a layout gives to its child `i` itself. -/
def field? (n : Nat) (i : Nat) : Option Field :=
  ((slots n).find? fun s => s.child == i && !s.inherited).map Slot.field

end Layout

end SusSyntax.Grammar
