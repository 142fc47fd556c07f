import ModuleScript.Table
import ModuleScript.Number.Display

/-!
Tokens: symbols, keywords, literals and identifiers. Symbols and keywords are determined by their
spelling, and the two spelling tables are read backwards by `Symbol.ofChar?`, `Symbol.ofPair?` and
`Keyword.ofSpelling?`.
-/

namespace ModuleScript

inductive Symbol where
  | openBrace
  | closeBrace
  | openParen
  | closeParen
  | assign
  | equal
  | notEqual
  | plus
  | minus
  | star
  | slash
  | ampersand
  | bar
  | bang
  | less
  | greater
  | lessEqual
  | greaterEqual
  | comma
  | semicolon
  | colon
  | dot
deriving DecidableEq, Repr

namespace Symbol

def spelling : Symbol → String
  | openBrace => "\x7b"
  | closeBrace => "\x7d"
  | openParen => "("
  | closeParen => ")"
  | assign => "="
  | equal => "=="
  | notEqual => "/="
  | plus => "+"
  | minus => "-"
  | star => "*"
  | slash => "/"
  | ampersand => "&"
  | bar => "|"
  | bang => "!"
  | less => "<"
  | greater => ">"
  | lessEqual => "<="
  | greaterEqual => ">="
  | comma => ","
  | semicolon => ";"
  | colon => ":"
  | dot => "."

def ofChar? : Char → Option Symbol
  | '{' => some openBrace
  | '}' => some closeBrace
  | '(' => some openParen
  | ')' => some closeParen
  | '=' => some assign
  | '+' => some plus
  | '-' => some minus
  | '*' => some star
  | '/' => some slash
  | '&' => some ampersand
  | '|' => some bar
  | '!' => some bang
  | '<' => some less
  | '>' => some greater
  | ',' => some comma
  | ';' => some semicolon
  | ':' => some colon
  | '.' => some dot
  | _ => none

def ofPair? : Char → Char → Option Symbol
  | '=', '=' => some equal
  | '/', '=' => some notEqual
  | '<', '=' => some lessEqual
  | '>', '=' => some greaterEqual
  | _, _ => none

end Symbol

inductive Keyword where
  | module_
  | let_
  | function_
  | return_
  | if_
  | else_
  | while_
  | import_
  | from_
  | export_
  | class_
  | constructor_
  | this_
  | null_
deriving DecidableEq, Repr

namespace Keyword

def all : List Keyword :=
  [module_, let_, function_, return_, if_, else_, while_, import_, from_, export_, class_,
    constructor_, this_, null_]

def spelling : Keyword → String
  | module_ => "module"
  | let_ => "let"
  | function_ => "function"
  | return_ => "return"
  | if_ => "if"
  | else_ => "else"
  | while_ => "while"
  | import_ => "import"
  | from_ => "from"
  | export_ => "export"
  | class_ => "class"
  | constructor_ => "constructor"
  | this_ => "this"
  | null_ => "null"

def ofSpelling? (word : String) : Option Keyword :=
  all.find? fun k => k.spelling = word

theorem ofSpelling?_spelling (k : Keyword) : ofSpelling? k.spelling = some k := by
  cases k <;> decide

end Keyword

inductive Token where
  | symbol (s : Symbol)
  | keyword (k : Keyword)
  | number (x : Float)
  | string (s : String)
  | boolean (b : Bool)
  | identifier (x : Name)
deriving DecidableEq

namespace Token

/-- What a word stands for: a keyword, a truth value or else an identifier. -/
def ofWord (word : String) : Token :=
  match Keyword.ofSpelling? word with
  | some k => keyword k
  | none =>
    if word = "true" then boolean true
    else if word = "false" then boolean false
    else identifier word

def text : Token → String
  | symbol s => s.spelling
  | keyword k => "\"" ++ k.spelling ++ "\""
  | number x => "number " ++ numberText x
  | string s => "string \"" ++ s ++ "\""
  | boolean b => if b then "true" else "false"
  | identifier x => "identifier " ++ x

end Token

end ModuleScript
