import SusSyntax.Lexical.Automaton

/-!
The automaton that reads tokens.

It is entered in state 0, 1 or 2, according to the lex mode; the three differ in what may follow
`/`, `:` and `!`, in whether operators are read at all, and only state 0 reads the end of the text.
States 5 and 6 are inside a block comment, 44 inside a line comment, 40 inside an identifier and
41 inside a number.
-/

namespace SusSyntax.Lexical

open LexState Move

/-- The states of the token automaton, by number. -/
def tokenAutomaton : Automaton where
  states := #[
    /-  0 -/ ending 9
      [on '\n' 43, on '!' 23, on '#' 3, on '%' 34, on '&' 25, on '\x27' 18, on '(' 36,
       on ')' 11, on '*' 21, on '+' 19, on ',' 42, on '-' 20, on '.' 35, on '/' 33, on ':' 16,
       on '<' 29, on '=' 14, on '>' 31, on '[' 37, on ']' 38, on '^' 26, on '\x7b' 12,
       on '|' 24, on '\x7d' 13, skip .blank 0, via .digit 41, via .identifierStart 40],
    /-  1 -/ inner
      [on '\n' 43, on '!' 22, on '#' 3, on '&' 25, on '(' 36, on ')' 11, on '*' 21, on '+' 19,
       on ',' 42, on '-' 20, on '/' 4, on ':' 7, on '[' 37, on '^' 26, on '\x7b' 12, on '|' 24,
       on '\x7d' 13, skip .blank 1, via .digit 41, via .identifierStart 40],
    /-  2 -/ inner
      [on '\n' 43, on '!' 8, on '#' 3, on '%' 34, on '&' 25, on '(' 36, on ')' 11, on '*' 21,
       on '+' 19, on ',' 42, on '-' 20, on '.' 35, on '/' 33, on ':' 7, on '<' 29, on '=' 14,
       on '>' 31, on '[' 37, on ']' 38, on '^' 26, on '\x7b' 12, on '|' 24, on '\x7d' 13,
       skip .blank 2, via .identifierStart 40],
    /-  3 -/ inner [on '(' 10],
    /-  4 -/ inner [on '*' 6, on '/' 44],
    /-  5 -/ inner [on '*' 5, on '/' 45, via (.anyBut []) 6],
    /-  6 -/ inner [on '*' 5, via (.anyBut []) 6],
    /-  7 -/ inner [on ':' 39],
    /-  8 -/ inner [on '=' 28],
    /-  9 -/ final .eof [],
    /- 10 -/ final .hashParen [],
    /- 11 -/ final .rparen [],
    /- 12 -/ final .lbrace [],
    /- 13 -/ final .rbrace [],
    /- 14 -/ final .assign [on '=' 27],
    /- 15 -/ final .dotDot [],
    /- 16 -/ final .colon [],
    /- 17 -/ final .arrow [],
    /- 18 -/ final .quote [],
    /- 19 -/ final .plus [],
    /- 20 -/ final .minus [on '>' 17],
    /- 21 -/ final .star [],
    /- 22 -/ final .bang [],
    /- 23 -/ final .bang [on '=' 28],
    /- 24 -/ final .pipe [],
    /- 25 -/ final .amp [],
    /- 26 -/ final .caret [],
    /- 27 -/ final .eqEq [],
    /- 28 -/ final .bangEq [],
    /- 29 -/ final .lt [on '=' 30],
    /- 30 -/ final .le [],
    /- 31 -/ final .gt [on '=' 32],
    /- 32 -/ final .ge [],
    /- 33 -/ final .slash [on '*' 6, on '/' 44],
    /- 34 -/ final .percent [],
    /- 35 -/ final .dot [on '.' 15],
    /- 36 -/ final .lparen [],
    /- 37 -/ final .lbracket [],
    /- 38 -/ final .rbracket [],
    /- 39 -/ final .colonColon [],
    /- 40 -/ final .identifier [via .identifierContinue 40],
    /- 41 -/ final .number [via .digit 41, on '_' 41],
    /- 42 -/ final .comma [],
    /- 43 -/ final .newline [],
    /- 44 -/ final .lineComment [via (.anyBut ['\n']) 44],
    /- 45 -/ final .blockComment []]

end SusSyntax.Lexical
