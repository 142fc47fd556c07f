import ModuleScript.Number.Reading
import ModuleScript.Token

/-!
Pieces of source text. The first character of a piece settles what kind of piece it is, and the
piece is as long as its kind allows. Main statement: `text_pieces`, the pieces put together are the
text.
-/

namespace ModuleScript

inductive PieceKind where
  | blank
  | comment
  | token (t : Token)
  | invalid
  | unterminated

/-- A piece has at least one character. -/
structure Piece where
  kind : PieceKind
  head : Char
  tail : List Char

namespace Piece

def text (p : Piece) : List Char := p.head :: p.tail

def token? (p : Piece) : Option Token :=
  match p.kind with
  | .token t => some t
  | _ => none

def lineEnds (p : Piece) : Nat := p.text.count '\n'

def isLetter (c : Char) : Bool := ('a' ≤ c && c ≤ 'z') || ('A' ≤ c && c ≤ 'Z')

def isWordChar (c : Char) : Bool := isLetter c || isDigit c || c = '_'

/-- A comment goes up to the end of its line. -/
def comment (cs : List Char) : PieceKind × List Char :=
  (.comment, cs.takeWhile (· ≠ '\n'))

/-- A string goes up to the next quote and may span lines. -/
def quoted (cs : List Char) : PieceKind × List Char :=
  if '"' ∈ cs then
    let body := cs.takeWhile (· ≠ '"')
    (.token (.string (String.ofList body)), body ++ ['"'])
  else (.unterminated, cs)

/-- A point belongs to a number only if a digit follows it. -/
def number (c : Char) (cs : List Char) : PieceKind × List Char :=
  let (digits, rest) := splitDigits cs
  let fraction := (splitFraction rest).1
  (.token (.number (Decimal.ofDigits (c :: digits) fraction 0).toNumber),
    if fraction = [] then digits else digits ++ '.' :: fraction)

def word (c : Char) (cs : List Char) : PieceKind × List Char :=
  let rest := cs.takeWhile isWordChar
  (.token (.ofWord (String.ofList (c :: rest))), rest)

/-- Text that starts nothing goes up to the next blank. -/
def invalid (cs : List Char) : PieceKind × List Char :=
  (.invalid, cs.takeWhile fun d => !isBlank d)

def symbol? (c : Char) (cs : List Char) : Option (PieceKind × List Char) :=
  match cs.head?.bind (Symbol.ofPair? c) with
  | some s => some (.token (.symbol s), cs.take 1)
  | none => (Symbol.ofChar? c).map fun s => (.token (.symbol s), [])

/-- Kind of the piece at the front of the text `c :: cs`, and how the piece goes on after `c`. -/
def cut (c : Char) (cs : List Char) : PieceKind × List Char :=
  if c = '/' ∧ cs.head? = some '/' then comment cs
  else match symbol? c cs with
    | some piece => piece
    | none =>
      if isBlank c then (.blank, [])
      else if c = '"' then quoted cs
      else if isDigit c then number c cs
      else if isLetter c then word c cs
      else invalid cs

def first (c : Char) (cs : List Char) : Piece :=
  ⟨(cut c cs).1, c, (cut c cs).2⟩

theorem takeWhile_ne_isPrefix {a : Char} {cs : List Char} (h : a ∈ cs) :
    cs.takeWhile (· ≠ a) ++ [a] <+: cs := by
  induction cs with
  | nil => simp at h
  | cons b rest ih =>
    by_cases hb : b = a
    · simp [hb]
    · simpa [hb] using ih (by simpa [Ne.symm hb] using h)

theorem quoted_isPrefix (cs : List Char) : (quoted cs).2 <+: cs := by
  unfold quoted
  split
  · rename_i h
    exact takeWhile_ne_isPrefix h
  · exact List.prefix_refl cs

theorem splitFraction_isPrefix (cs : List Char) (h : (splitFraction cs).1 ≠ []) :
    '.' :: (splitFraction cs).1 <+: cs := by
  unfold splitFraction at h ⊢
  split at h
  · simpa [splitDigits] using List.takeWhile_prefix isDigit
  · simp at h

theorem number_isPrefix (c : Char) (cs : List Char) : (number c cs).2 <+: cs := by
  by_cases h : (splitFraction (splitDigits cs).2).1 = []
  · have hd : (splitDigits cs).1 <+: cs := List.takeWhile_prefix isDigit
    simpa [number, h] using hd
  · have hf := (List.prefix_append_right_inj (splitDigits cs).1).2 (splitFraction_isPrefix _ h)
    have hs : (splitDigits cs).1 ++ (splitDigits cs).2 = cs := List.takeWhile_append_dropWhile
    simpa [number, h, hs] using hf

theorem symbol?_isPrefix {c : Char} {cs : List Char} {p : PieceKind × List Char}
    (h : symbol? c cs = some p) : p.2 <+: cs := by
  unfold symbol? at h
  split at h
  · cases h
    exact List.take_prefix 1 cs
  · obtain ⟨s, -, rfl⟩ := Option.map_eq_some_iff.1 h
    exact List.nil_prefix

theorem cut_isPrefix (c : Char) (cs : List Char) : (cut c cs).2 <+: cs := by
  unfold cut
  split
  · exact List.takeWhile_prefix _
  · split
    · rename_i h
      exact symbol?_isPrefix h
    · split
      · exact List.nil_prefix
      · split
        · exact quoted_isPrefix cs
        · split
          · exact number_isPrefix c cs
          · split <;> exact List.takeWhile_prefix _

end Piece

def pieces : List Char → List Piece
  | [] => []
  | c :: cs => Piece.first c cs :: pieces (cs.drop (Piece.first c cs).tail.length)
termination_by cs => cs.length
decreasing_by rw [List.length_drop, List.length_cons]; omega

theorem text_pieces (cs : List Char) : (pieces cs).flatMap Piece.text = cs := by
  fun_induction pieces cs with
  | case1 => rfl
  | case2 c cs ih =>
    rw [List.flatMap_cons, ih]
    exact congrArg (c :: ·) (List.prefix_iff_eq_append.1 (Piece.cut_isPrefix c cs))

end ModuleScript
