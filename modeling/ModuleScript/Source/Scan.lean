import ModuleScript.Source.Piece

/-!
Scanning: the tokens of a text, or every error in it. An error stands on the line where its piece
begins; lines are counted from one.
-/

namespace ModuleScript

inductive ScanError where
  | invalid (line : Nat) (lexeme : String)
  | unterminated (line : Nat)
deriving DecidableEq, Repr

def ScanError.message : ScanError → String
  | invalid line lexeme => "[line " ++ toString line ++ "] Invalid lexeme '" ++ lexeme ++ "'"
  | unterminated line => "[line " ++ toString line ++ "] Unterminated string"

def Piece.error? (p : Piece) (line : Nat) : Option ScanError :=
  match p.kind with
  | .invalid => some (.invalid line (String.ofList p.text))
  | .unterminated => some (.unterminated line)
  | _ => none

/-- Errors of pieces of which the first begins on `line`. -/
def scanErrors : Nat → List Piece → List ScanError
  | _, [] => []
  | line, p :: rest => (p.error? line).toList ++ scanErrors (line + p.lineEnds) rest

def scanTokens (ps : List Piece) : List Token := ps.filterMap Piece.token?

def scan (source : String) : Except (List ScanError) (List Token) :=
  let ps := pieces source.toList
  match scanErrors 1 ps with
  | [] => .ok (scanTokens ps)
  | errors => .error errors

end ModuleScript
