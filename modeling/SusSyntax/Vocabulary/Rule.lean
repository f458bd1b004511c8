/-!
The nonterminals of the grammar.

Most rules name a construct that a tree shows. The others (`isVisible` is false) only group: the
type and expression classes, separators with the line breaks after them, the tail of a port list,
and the repetitions that hold the further items of a list.
-/

namespace SusSyntax

/-- A nonterminal of the grammar. -/
inductive Rule where
  | sourceFile | globalObject | constAndType | templateDeclarationArguments
  | templateDeclarationType | block | declAssignStatement | assignLeftSide | assignTo
  | writeModifiers | ifStatement | forStatement | domainStatement | interfaceStatement
  | interfacePorts | interfacePortsOutput | declarationList | declaration | latencySpecifier
  | type | arrayType | expression | unaryOp | binaryOp | arrayOp | funcCall | fieldAccess
  | parenthesisExpressionList | parenthesisExpression | arrayBracketExpression | namespaceList
  | templateGlobal | templateArgs | templateArg | commaBreak | linebreak | sourceFileItems
  | templateDeclarationItems | blockItems | assignLeftSideItems | writeModifiersItems
  | declarationListItems | parenthesisExpressionItems | namespaceListItems | templateArgsItems
deriving DecidableEq, Repr

namespace Rule

/-- Every rule, in order of its number. -/
def all : List Rule :=
  [.sourceFile, .globalObject, .constAndType, .templateDeclarationArguments,
   .templateDeclarationType, .block, .declAssignStatement, .assignLeftSide, .assignTo,
   .writeModifiers, .ifStatement, .forStatement, .domainStatement, .interfaceStatement,
   .interfacePorts, .interfacePortsOutput, .declarationList, .declaration, .latencySpecifier,
   .type, .arrayType, .expression, .unaryOp, .binaryOp, .arrayOp, .funcCall, .fieldAccess,
   .parenthesisExpressionList, .parenthesisExpression, .arrayBracketExpression, .namespaceList,
   .templateGlobal, .templateArgs, .templateArg, .commaBreak, .linebreak, .sourceFileItems,
   .templateDeclarationItems, .blockItems, .assignLeftSideItems, .writeModifiersItems,
   .declarationListItems, .parenthesisExpressionItems, .namespaceListItems, .templateArgsItems]

/-- How a rule is called. -/
def name : Rule → String
  | .sourceFile => "source_file"
  | .globalObject => "global_object"
  | .constAndType => "const_and_type"
  | .templateDeclarationArguments => "template_declaration_arguments"
  | .templateDeclarationType => "template_declaration_type"
  | .block => "block"
  | .declAssignStatement => "decl_assign_statement"
  | .assignLeftSide => "assign_left_side"
  | .assignTo => "assign_to"
  | .writeModifiers => "write_modifiers"
  | .ifStatement => "if_statement"
  | .forStatement => "for_statement"
  | .domainStatement => "domain_statement"
  | .interfaceStatement => "interface_statement"
  | .interfacePorts => "interface_ports"
  | .interfacePortsOutput => "_interface_ports_output"
  | .declarationList => "declaration_list"
  | .declaration => "declaration"
  | .latencySpecifier => "latency_specifier"
  | .type => "_type"
  | .arrayType => "array_type"
  | .expression => "_expression"
  | .unaryOp => "unary_op"
  | .binaryOp => "binary_op"
  | .arrayOp => "array_op"
  | .funcCall => "func_call"
  | .fieldAccess => "field_access"
  | .parenthesisExpressionList => "parenthesis_expression_list"
  | .parenthesisExpression => "parenthesis_expression"
  | .arrayBracketExpression => "array_bracket_expression"
  | .namespaceList => "namespace_list"
  | .templateGlobal => "template_global"
  | .templateArgs => "template_args"
  | .templateArg => "template_arg"
  | .commaBreak => "_comma"
  | .linebreak => "_linebreak"
  | .sourceFileItems => "source_file_repeat1"
  | .templateDeclarationItems => "template_declaration_arguments_repeat1"
  | .blockItems => "block_repeat1"
  | .assignLeftSideItems => "assign_left_side_repeat1"
  | .writeModifiersItems => "write_modifiers_repeat1"
  | .declarationListItems => "declaration_list_repeat1"
  | .parenthesisExpressionItems => "parenthesis_expression_list_repeat1"
  | .namespaceListItems => "namespace_list_repeat1"
  | .templateArgsItems => "template_args_repeat1"

/-- A rule that only groups: a tree shows its children in its place. -/
def isHidden : Rule → Bool
  | .interfacePortsOutput | .type | .expression | .commaBreak | .linebreak | .sourceFileItems
  | .templateDeclarationItems | .blockItems | .assignLeftSideItems | .writeModifiersItems
  | .declarationListItems | .parenthesisExpressionItems | .namespaceListItems
  | .templateArgsItems => true
  | _ => false

/-- A rule that a tree shows as a node. -/
def isVisible (r : Rule) : Bool :=
  !r.isHidden

/-- A rule with a name of its own; the repetitions have none. -/
def isNamed : Rule → Bool
  | .linebreak | .sourceFileItems | .templateDeclarationItems | .blockItems
  | .assignLeftSideItems | .writeModifiersItems | .declarationListItems
  | .parenthesisExpressionItems | .namespaceListItems | .templateArgsItems => false
  | _ => true

theorem mem_all (r : Rule) : r ∈ all := by
  cases r <;> decide

theorem isNamed_of_isVisible : ∀ r : Rule, r.isVisible = true → r.isNamed = true := by
  intro r
  cases r <;> decide

end Rule

end SusSyntax
