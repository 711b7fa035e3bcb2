/-!
# Kinds of token
-/

namespace Treewalk.Token

inductive Kind where
  -- one character
  | leftParen | rightParen | leftBrace | rightBrace | comma | dot
  | minus | plus | semicolon | slash | star
  -- one or two characters
  | bang | bangEqual | equal | equalEqual | greater | greaterEqual | less | lessEqual
  -- with a value
  | identifier | string | number
  -- reserved words
  | andKw | classKw | elseKw | falseKw | funKw | forKw | ifKw | nilKw | orKw | printKw
  | returnKw | superKw | thisKw | trueKw | varKw | whileKw
  | eof
deriving DecidableEq, Repr

namespace Kind

def name : Kind → String
  | leftParen => "LEFT_PAREN"
  | rightParen => "RIGHT_PAREN"
  | leftBrace => "LEFT_BRACE"
  | rightBrace => "RIGHT_BRACE"
  | comma => "COMMA"
  | dot => "DOT"
  | minus => "MINUS"
  | plus => "PLUS"
  | semicolon => "SEMICOLON"
  | slash => "SLASH"
  | star => "STAR"
  | bang => "BANG"
  | bangEqual => "BANG_EQUAL"
  | equal => "EQUAL"
  | equalEqual => "EQUAL_EQUAL"
  | greater => "GREATER"
  | greaterEqual => "GREATER_EQUAL"
  | less => "LESS"
  | lessEqual => "LESS_EQUAL"
  | identifier => "IDENTIFIER"
  | string => "STRING"
  | number => "NUMBER"
  | andKw => "AND"
  | classKw => "CLASS"
  | elseKw => "ELSE"
  | falseKw => "FALSE"
  | funKw => "FUN"
  | forKw => "FOR"
  | ifKw => "IF"
  | nilKw => "NIL"
  | orKw => "OR"
  | printKw => "PRINT"
  | returnKw => "RETURN"
  | superKw => "SUPER"
  | thisKw => "THIS"
  | trueKw => "TRUE"
  | varKw => "VAR"
  | whileKw => "WHILE"
  | eof => "EOF"

def all : List Kind :=
  [leftParen, rightParen, leftBrace, rightBrace, comma, dot, minus, plus, semicolon, slash, star,
    bang, bangEqual, equal, equalEqual, greater, greaterEqual, less, lessEqual,
    identifier, string, number,
    andKw, classKw, elseKw, falseKw, funKw, forKw, ifKw, nilKw, orKw, printKw,
    returnKw, superKw, thisKw, trueKw, varKw, whileKw, eof]

def ofName? (name : String) : Option Kind := all.find? fun kind => kind.name = name

/-- The kind of a reserved word. The word for printing is `scream`. -/
def keyword? : String → Option Kind
  | "and" => some andKw
  | "class" => some classKw
  | "else" => some elseKw
  | "false" => some falseKw
  | "fun" => some funKw
  | "for" => some forKw
  | "if" => some ifKw
  | "nil" => some nilKw
  | "or" => some orKw
  | "scream" => some printKw
  | "return" => some returnKw
  | "super" => some superKw
  | "this" => some thisKw
  | "true" => some trueKw
  | "var" => some varKw
  | "while" => some whileKw
  | _ => none

/-- Kinds that open a declaration or a statement. After an error, parsing resumes there. -/
def startsStatement : Kind → Bool
  | classKw | funKw | varKw | forKw | ifKw | whileKw | printKw | returnKw => true
  | _ => false

end Kind

end Treewalk.Token
