import SusSyntax.Lexical.Automaton

/-!
The automaton that reads keywords: the tree of their spellings, entered in state 0.
-/

namespace SusSyntax.Lexical

open LexState Move

/-- The states of the keyword automaton, by number. -/
def keywordAutomaton : Automaton where
  states := #[
    /-  0 -/ inner
      [on '_' 1, on 'c' 2, on 'd' 3, on 'e' 4, on 'f' 5, on 'g' 6, on 'i' 7, on 'm' 8, on 'o' 9,
       on 'r' 10, on 's' 11, on 't' 12, on 'w' 13, skip .blank 0],
    /-  1 -/ inner [on '_' 14],
    /-  2 -/ inner [on 'o' 15],
    /-  3 -/ inner [on 'o' 16],
    /-  4 -/ inner [on 'l' 17, on 'x' 18],
    /-  5 -/ inner [on 'o' 19],
    /-  6 -/ inner [on 'e' 20],
    /-  7 -/ inner [on 'f' 21, on 'n' 22],
    /-  8 -/ inner [on 'o' 23],
    /-  9 -/ inner [on 'u' 24],
    /- 10 -/ inner [on 'e' 25],
    /- 11 -/ inner [on 't' 26],
    /- 12 -/ inner [on 'y' 27],
    /- 13 -/ inner [on 'h' 28],
    /- 14 -/ inner [on 'b' 29],
    /- 15 -/ inner [on 'n' 30],
    /- 16 -/ inner [on 'm' 31],
    /- 17 -/ inner [on 's' 32],
    /- 18 -/ inner [on 't' 33],
    /- 19 -/ inner [on 'r' 34],
    /- 20 -/ inner [on 'n' 35],
    /- 21 -/ final .ifKw [],
    /- 22 -/ final .inKw [on 'i' 36, on 'p' 37, on 't' 38],
    /- 23 -/ inner [on 'd' 39],
    /- 24 -/ inner [on 't' 40],
    /- 25 -/ inner [on 'g' 41],
    /- 26 -/ inner [on 'a' 42, on 'r' 43],
    /- 27 -/ inner [on 'p' 44],
    /- 28 -/ inner [on 'e' 45],
    /- 29 -/ inner [on 'u' 46],
    /- 30 -/ inner [on 's' 47],
    /- 31 -/ inner [on 'a' 48],
    /- 32 -/ inner [on 'e' 49],
    /- 33 -/ inner [on 'e' 50],
    /- 34 -/ final .forKw [],
    /- 35 -/ final .genKw [],
    /- 36 -/ inner [on 't' 51],
    /- 37 -/ inner [on 'u' 52],
    /- 38 -/ inner [on 'e' 53],
    /- 39 -/ inner [on 'u' 54],
    /- 40 -/ inner [on 'p' 55],
    /- 41 -/ final .regKw [],
    /- 42 -/ inner [on 't' 56],
    /- 43 -/ inner [on 'u' 57],
    /- 44 -/ inner [on 'e' 58],
    /- 45 -/ inner [on 'n' 59],
    /- 46 -/ inner [on 'i' 60],
    /- 47 -/ inner [on 't' 61],
    /- 48 -/ inner [on 'i' 62],
    /- 49 -/ final .elseKw [],
    /- 50 -/ inner [on 'r' 63],
    /- 51 -/ inner [on 'i' 64],
    /- 52 -/ inner [on 't' 65],
    /- 53 -/ inner [on 'r' 66],
    /- 54 -/ inner [on 'l' 67],
    /- 55 -/ inner [on 'u' 68],
    /- 56 -/ inner [on 'e' 69],
    /- 57 -/ inner [on 'c' 70],
    /- 58 -/ final .typeKw [],
    /- 59 -/ final .whenKw [],
    /- 60 -/ inner [on 'l' 71],
    /- 61 -/ final .constKw [],
    /- 62 -/ inner [on 'n' 72],
    /- 63 -/ inner [on 'n' 73],
    /- 64 -/ inner [on 'a' 74],
    /- 65 -/ final .inputKw [],
    /- 66 -/ inner [on 'f' 75],
    /- 67 -/ inner [on 'e' 76],
    /- 68 -/ inner [on 't' 77],
    /- 69 -/ final .stateKw [],
    /- 70 -/ inner [on 't' 78],
    /- 71 -/ inner [on 't' 79],
    /- 72 -/ final .domainKw [],
    /- 73 -/ final .externKw [],
    /- 74 -/ inner [on 'l' 80],
    /- 75 -/ inner [on 'a' 81],
    /- 76 -/ final .moduleKw [],
    /- 77 -/ final .outputKw [],
    /- 78 -/ final .structKw [],
    /- 79 -/ inner [on 'i' 82],
    /- 80 -/ final .initialKw [],
    /- 81 -/ inner [on 'c' 83],
    /- 82 -/ inner [on 'n' 84],
    /- 83 -/ inner [on 'e' 85],
    /- 84 -/ inner [on '_' 86],
    /- 85 -/ final .interfaceKw [],
    /- 86 -/ inner [on '_' 87],
    /- 87 -/ final .builtinKw []]

end SusSyntax.Lexical
