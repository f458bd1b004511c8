/-!
The terminals of the language: what the lexer can read.

A token is the end of the text, one of four open classes (identifiers, numbers, the two kinds of
comment) or a fixed spelling. Tokens are numbered in the order of `Token.all`; the number is part
of the public interface (`Token.id`, `Token.ofId?`), and `Token.ofId?_id` says that it determines
the token.
-/

namespace SusSyntax

/-- A terminal of the grammar. -/
inductive Token where
  | eof | identifier | builtinKw | externKw | moduleKw | structKw | constKw | hashParen | rparen
  | lbrace | rbrace | assign | regKw | initialKw | whenKw | ifKw | elseKw | forKw | inKw
  | dotDot | domainKw | interfaceKw | colon | arrow | inputKw | outputKw | stateKw | genKw
  | quote | plus | minus | star | bang | pipe | amp | caret | eqEq | bangEq | lt | le | gt | ge
  | slash | percent | dot | lparen | lbracket | rbracket | colonColon | typeKw | number | comma
  | newline | lineComment | blockComment
deriving DecidableEq, Repr

namespace Token

/-- Every token, by number. -/
def all : List Token :=
  [.eof, .identifier, .builtinKw, .externKw, .moduleKw, .structKw, .constKw, .hashParen,
   .rparen, .lbrace, .rbrace, .assign, .regKw, .initialKw, .whenKw, .ifKw, .elseKw, .forKw,
   .inKw, .dotDot, .domainKw, .interfaceKw, .colon, .arrow, .inputKw, .outputKw, .stateKw,
   .genKw, .quote, .plus, .minus, .star, .bang, .pipe, .amp, .caret, .eqEq, .bangEq, .lt, .le,
   .gt, .ge, .slash, .percent, .dot, .lparen, .lbracket, .rbracket, .colonColon, .typeKw,
   .number, .comma, .newline, .lineComment, .blockComment]

/-- The number of a token. -/
def id (t : Token) : Nat :=
  t.ctorIdx

/-- The token of a number. -/
def ofId? (n : Nat) : Option Token :=
  all[n]?

/-- How a token is called: a fixed spelling is its own name. -/
def name : Token → String
  | .eof => "end"
  | .identifier => "identifier"
  | .builtinKw => "__builtin__"
  | .externKw => "extern"
  | .moduleKw => "module"
  | .structKw => "struct"
  | .constKw => "const"
  | .hashParen => "#("
  | .rparen => ")"
  | .lbrace => "\x7b"
  | .rbrace => "\x7d"
  | .assign => "="
  | .regKw => "reg"
  | .initialKw => "initial"
  | .whenKw => "when"
  | .ifKw => "if"
  | .elseKw => "else"
  | .forKw => "for"
  | .inKw => "in"
  | .dotDot => ".."
  | .domainKw => "domain"
  | .interfaceKw => "interface"
  | .colon => ":"
  | .arrow => "->"
  | .inputKw => "input"
  | .outputKw => "output"
  | .stateKw => "state"
  | .genKw => "gen"
  | .quote => "'"
  | .plus => "+"
  | .minus => "-"
  | .star => "*"
  | .bang => "!"
  | .pipe => "|"
  | .amp => "&"
  | .caret => "^"
  | .eqEq => "=="
  | .bangEq => "!="
  | .lt => "<"
  | .le => "<="
  | .gt => ">"
  | .ge => ">="
  | .slash => "/"
  | .percent => "%"
  | .dot => "."
  | .lparen => "("
  | .lbracket => "["
  | .rbracket => "]"
  | .colonColon => "::"
  | .typeKw => "type"
  | .number => "number"
  | .comma => ","
  | .newline => "\n"
  | .lineComment => "single_line_comment"
  | .blockComment => "multi_line_comment"

/-- A token that a tree shows: all but the end of the text. -/
def isVisible (t : Token) : Bool :=
  t != .eof

/-- A token that is called by a name of its own, and not by its spelling. -/
def isNamed : Token → Bool
  | .eof | .identifier | .number | .lineComment | .blockComment => true
  | _ => false

/-- A comment may stand between any two tokens. -/
def isComment : Token → Bool
  | .lineComment | .blockComment => true
  | _ => false

/-- The fixed spellings that the lexer first reads as an identifier. -/
def keywords : List Token :=
  [.builtinKw, .externKw, .moduleKw, .structKw, .constKw, .regKw, .initialKw, .whenKw, .ifKw,
   .elseKw, .forKw, .inKw, .domainKw, .interfaceKw, .inputKw, .outputKw, .stateKw, .genKw,
   .typeKw]

/-! ### Numbering -/

theorem mem_all (t : Token) : t ∈ all := by
  cases t <;> decide

@[simp] theorem ofId?_id (t : Token) : ofId? t.id = some t := by
  cases t <;> rfl

theorem id_lt (t : Token) : t.id < all.length := by
  cases t <;> decide

end Token

end SusSyntax
