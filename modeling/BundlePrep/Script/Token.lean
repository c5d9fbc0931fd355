/-!
# Tokens

The words, marks and literals that a script is made of. Templates, regular expressions and markup
text are not tokens: the grammar reads them where it expects them. The marks `<` and `>` always
stand alone; the operators that begin with one of them are put together where the grammar expects
an operator, since a type may end with several of them in a row.
-/

set_option autoImplicit false

namespace BundlePrep.Script

/-- A range of bytes of the script, its end excluded. -/
structure Span where
  start : Nat
  stop : Nat
  deriving DecidableEq, Repr, Inhabited

inductive Mark where
  | openBrace | closeBrace | openParen | closeParen | openBracket | closeBracket
  | dot | ellipsis | semicolon | comma | colon | question | optionalDot | arrow | at | backquote
  | less | greater | slash | slashAssign | assign | compoundAssign | logicalAssign
  | plus | minus | star | power | percent | increment | decrement
  | bang | tilde | ampersand | bar | caret | logicalAnd | logicalOr | coalesce | equality
  deriving DecidableEq, Repr

inductive Token where
  /-- An identifier or a keyword, with whether an escape stands in its spelling. -/
  | word (text : String) (escaped : Bool)
  /-- A `#` directly followed by a name. -/
  | privateWord (text : String)
  | number
  /-- A quoted text and its value, if that has one without lone surrogates. -/
  | text (value : Option String)
  | mark (mark : Mark)
  | finish
  /-- What starts no token. -/
  | bad
  deriving DecidableEq, Repr

def reservedWords : List String :=
  ["break", "case", "catch", "class", "const", "continue", "debugger", "default", "delete", "do",
    "else", "enum", "export", "extends", "false", "finally", "for", "function", "if", "import",
    "in", "instanceof", "new", "null", "return", "super", "switch", "this", "throw", "true", "try",
    "typeof", "var", "void", "while", "with"]

def strictWords : List String :=
  ["implements", "interface", "let", "package", "private", "protected", "public", "static", "yield"]

def isReserved (word : String) : Bool := reservedWords.contains word

def isStrictReserved (word : String) : Bool := strictWords.contains word

def Mark.scan : List Char → Option (Mark × Nat × List Char)
  | '.' :: '.' :: '.' :: r => some (.ellipsis, 3, r)
  | '.' :: r => some (.dot, 1, r)
  | '{' :: r => some (.openBrace, 1, r)
  | '}' :: r => some (.closeBrace, 1, r)
  | '(' :: r => some (.openParen, 1, r)
  | ')' :: r => some (.closeParen, 1, r)
  | '[' :: r => some (.openBracket, 1, r)
  | ']' :: r => some (.closeBracket, 1, r)
  | ';' :: r => some (.semicolon, 1, r)
  | ',' :: r => some (.comma, 1, r)
  | ':' :: r => some (.colon, 1, r)
  | '@' :: r => some (.at, 1, r)
  | '\x60' :: r => some (.backquote, 1, r)
  | '<' :: r => some (.less, 1, r)
  | '>' :: r => some (.greater, 1, r)
  | '~' :: r => some (.tilde, 1, r)
  | '?' :: '?' :: '=' :: r => some (.logicalAssign, 3, r)
  | '?' :: '?' :: r => some (.coalesce, 2, r)
  | '?' :: '.' :: d :: r =>
    if d.isDigit then some (.question, 1, '.' :: d :: r) else some (.optionalDot, 2, d :: r)
  | '?' :: '.' :: [] => some (.optionalDot, 2, [])
  | '?' :: r => some (.question, 1, r)
  | '=' :: '>' :: r => some (.arrow, 2, r)
  | '=' :: '=' :: '=' :: r => some (.equality, 3, r)
  | '=' :: '=' :: r => some (.equality, 2, r)
  | '=' :: r => some (.assign, 1, r)
  | '!' :: '=' :: '=' :: r => some (.equality, 3, r)
  | '!' :: '=' :: r => some (.equality, 2, r)
  | '!' :: r => some (.bang, 1, r)
  | '+' :: '+' :: r => some (.increment, 2, r)
  | '+' :: '=' :: r => some (.compoundAssign, 2, r)
  | '+' :: r => some (.plus, 1, r)
  | '-' :: '-' :: r => some (.decrement, 2, r)
  | '-' :: '=' :: r => some (.compoundAssign, 2, r)
  | '-' :: r => some (.minus, 1, r)
  | '*' :: '*' :: '=' :: r => some (.compoundAssign, 3, r)
  | '*' :: '*' :: r => some (.power, 2, r)
  | '*' :: '=' :: r => some (.compoundAssign, 2, r)
  | '*' :: r => some (.star, 1, r)
  | '/' :: '=' :: r => some (.slashAssign, 2, r)
  | '/' :: r => some (.slash, 1, r)
  | '%' :: '=' :: r => some (.compoundAssign, 2, r)
  | '%' :: r => some (.percent, 1, r)
  | '&' :: '&' :: '=' :: r => some (.logicalAssign, 3, r)
  | '&' :: '&' :: r => some (.logicalAnd, 2, r)
  | '&' :: '=' :: r => some (.compoundAssign, 2, r)
  | '&' :: r => some (.ampersand, 1, r)
  | '|' :: '|' :: '=' :: r => some (.logicalAssign, 3, r)
  | '|' :: '|' :: r => some (.logicalOr, 2, r)
  | '|' :: '=' :: r => some (.compoundAssign, 2, r)
  | '|' :: r => some (.bar, 1, r)
  | '^' :: '=' :: r => some (.compoundAssign, 2, r)
  | '^' :: r => some (.caret, 1, r)
  | _ => none

end BundlePrep.Script
