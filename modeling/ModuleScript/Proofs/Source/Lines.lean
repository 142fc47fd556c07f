import ModuleScript.Proofs.Source.Writing

/-!
Texts put together at the end of a line. Main statement: `scan_lines`, unless a string is left open
in the first text, scanning finds what it finds in the two texts, with the lines of the second one
counted on.
-/

namespace ModuleScript

def ScanError.later (n : Nat) : ScanError → ScanError
  | invalid line lexeme => .invalid (line + n) lexeme
  | unterminated line => .unterminated (line + n)

namespace Lexical

open Piece

def tokensIn (source : String) : List Token :=
  match scan source with
  | .ok ts => ts
  | .error _ => []

def errorsIn (source : String) : List ScanError :=
  match scan source with
  | .ok _ => []
  | .error errors => errors

variable {cs more u v rest : List Char} {k : PieceKind} {ps qs : List Piece}

/-! Pieces in front of a new line end -/

theorem isPrefix_of_isPrefix_line (hv : '\n' ∉ v) (h : v <+: cs ++ '\n' :: more) : v <+: cs := by
  by_contra hnot
  have hlonger : cs.length < v.length := by
    by_contra hle
    exact hnot (List.prefix_of_prefix_length_le h (List.prefix_append cs _) (Nat.le_of_not_lt hle))
  obtain ⟨d, hd, hhead⟩ := exists_mem_of_isPrefix h hlonger
  obtain rfl := Option.some.inj hhead
  exact hv hd

/-- The lexemes at a place in front of a new line end are those that were there before. Only strings
go over line ends, and the first quote closes them. -/
theorem length_le_of_isPrefix_line {t t' : Token} (hu : Lexeme u t)
    (hlongest : ∀ v t', Lexeme v t' → v <+: u ++ rest → v.length ≤ u.length) (hv : Lexeme v t')
    (hfront : v <+: u ++ (rest ++ '\n' :: more)) : v.length ≤ u.length := by
  obtain ⟨c, w, rfl, hshape⟩ := exists_shape hu
  obtain ⟨w', rfl, hw', hshape'⟩ := exists_shape_of_isPrefix hv hfront
  by_cases hc : c = '"'
  · subst hc
    obtain ⟨s, hs, rfl, rfl⟩ := hshape.of_quote
    obtain ⟨s', hs', rfl, rfl⟩ := hshape'.of_quote
    obtain ⟨r, hr⟩ := hw'
    have heq : s'.toList ++ '"' :: r = s.toList ++ '"' :: (rest ++ '\n' :: more) := by
      simpa using hr
    rw [eq_of_quote hs' hs heq]
  · have hline : '\n' ∉ c :: w' := by
      intro hmem
      cases hshape'.not_isBlank_of_mem hc '\n' hmem
    rw [← List.append_assoc] at hfront
    exact hlongest _ _ hv (isPrefix_of_isPrefix_line hline hfront)

theorem head?_append_line {p : Char → Prop} (hrest : ∀ d, rest.head? = some d → p d)
    (hline : p '\n') : ∀ d, (rest ++ '\n' :: more).head? = some d → p d := by
  intro d hd
  cases rest with
  | nil => exact Option.some.inj hd ▸ hline
  | cons c rest => exact hrest d hd

theorem PieceAt.append_line (h : PieceAt k u rest) (hk : k ≠ .unterminated) (more : List Char) :
    PieceAt k u (rest ++ '\n' :: more) := by
  cases h with
  | blank hc => exact .blank hc
  | comment hu hrest => exact .comment hu (head?_append_line hrest rfl)
  | token hu hlongest hslash =>
    refine .token hu (fun v t' hv hfront => ?_) fun hcomment => ?_
    · exact length_le_of_isPrefix_line hu hlongest hv hfront
    · rw [← List.append_assoc] at hcomment
      exact hslash (isPrefix_of_isPrefix_line (by simp) hcomment)
  | invalid hc hnone hu hrest => exact .invalid hc hnone hu (head?_append_line hrest rfl)
  | unterminated _ => exact absurd rfl hk

theorem Splits.append_line (h : Splits cs ps) (hclosed : ∀ p ∈ ps, p.kind ≠ .unterminated)
    (hmore : Splits more qs) :
    Splits (cs ++ '\n' :: more) (ps ++ ⟨.blank, '\n', []⟩ :: qs) := by
  induction h with
  | nil =>
    have hline : PieceAt .blank ['\n'] more := .blank rfl
    exact .cons (p := ⟨.blank, '\n', []⟩) hline hmore
  | @cons p rest ps hp _ ih =>
    obtain ⟨hkind, hclosed⟩ := List.forall_mem_cons.mp hclosed
    rw [List.append_assoc]
    exact .cons (hp.append_line hkind more) (ih hclosed)

/-! Errors and their lines -/

theorem error?_add (p : Piece) (line n : Nat) :
    p.error? (line + n) = (p.error? line).map (ScanError.later n) := by
  unfold Piece.error?
  split <;> rfl

theorem scanErrors_add (line n : Nat) (ps : List Piece) :
    scanErrors (line + n) ps = (scanErrors line ps).map (ScanError.later n) := by
  induction ps generalizing line with
  | nil => rfl
  | cons p ps ih =>
    rw [scanErrors, scanErrors, Nat.add_right_comm, ih, error?_add, Option.toList_map,
      List.map_append]

theorem scanErrors_append (line : Nat) (ps qs : List Piece) :
    scanErrors line (ps ++ qs) =
      scanErrors line ps ++ scanErrors (line + (ps.flatMap Piece.text).count '\n') qs := by
  induction ps generalizing line with
  | nil => rfl
  | cons p ps ih =>
    rw [List.cons_append, scanErrors, scanErrors, ih, List.flatMap_cons, List.count_append,
      Piece.lineEnds, Nat.add_assoc, List.append_assoc]

theorem exists_unterminated_mem {p : Piece} (hp : p ∈ ps) (hkind : p.kind = .unterminated)
    (line : Nat) : ∃ n, .unterminated n ∈ scanErrors line ps := by
  induction ps generalizing line with
  | nil => cases hp
  | cons q ps ih =>
    rw [scanErrors]
    rcases List.mem_cons.mp hp with rfl | hmem
    · refine ⟨line, List.mem_append_left _ ?_⟩
      simp [Piece.error?, hkind]
    · obtain ⟨n, hn⟩ := ih hmem (line + q.lineEnds)
      exact ⟨n, List.mem_append_right _ hn⟩

theorem scan_eq (source : String) :
    scan source =
      if scanErrors 1 (pieces source.toList) = [] then .ok (scanTokens (pieces source.toList))
      else .error (scanErrors 1 (pieces source.toList)) := by
  unfold scan
  dsimp only
  split
  · rename_i hnone
    rw [if_pos hnone]
  · rename_i hsome
    rw [if_neg hsome]

theorem errorsIn_eq (source : String) : errorsIn source = scanErrors 1 (pieces source.toList) := by
  rw [errorsIn, scan_eq]
  split_ifs with hnone
  · exact hnone.symm
  · rfl

theorem tokensIn_eq {source : String} (h : errorsIn source = []) :
    tokensIn source = scanTokens (pieces source.toList) := by
  rw [errorsIn_eq] at h
  rw [tokensIn, scan_eq, if_pos h]

theorem pieces_append_line {first : String} (h : ∀ line, .unterminated line ∉ errorsIn first)
    (more : List Char) :
    pieces (first.toList ++ '\n' :: more) =
      pieces first.toList ++ ⟨.blank, '\n', []⟩ :: pieces more := by
  have hclosed : ∀ p ∈ pieces first.toList, p.kind ≠ .unterminated := by
    intro p hp hkind
    obtain ⟨n, hn⟩ := exists_unterminated_mem hp hkind 1
    rw [← errorsIn_eq] at hn
    exact h n hn
  have hmore : Splits more (pieces more) := splits_iff.mpr rfl
  have hsplits := Splits.append_line (splits_iff.mpr rfl) hclosed hmore
  exact (splits_iff.mp hsplits).symm

/--
Unless a string is left open in the first text, scanning two texts with a line end between them
gives the tokens of the first and then those of the second; and if there are errors in them, the
errors of the first and then those of the second, as many lines further down as the first has, and
one for the new line end.
-/
theorem scan_lines (first second : String) (h : ∀ line, .unterminated line ∉ errorsIn first) :
    scan (first ++ "\n" ++ second) =
      if errorsIn first = [] ∧ errorsIn second = [] then
        .ok (tokensIn first ++ tokensIn second)
      else
        .error (errorsIn first ++
          (errorsIn second).map (ScanError.later (1 + first.toList.count '\n'))) := by
  have htext : (first ++ "\n" ++ second).toList = first.toList ++ '\n' :: second.toList := by
    simp [String.toList_append]
  have herrors : scanErrors 1 (pieces (first ++ "\n" ++ second).toList) =
      errorsIn first ++
        (errorsIn second).map (ScanError.later (1 + first.toList.count '\n')) := by
    have hline : scanErrors (1 + first.toList.count '\n')
        (⟨.blank, '\n', []⟩ :: pieces second.toList) =
          scanErrors (1 + (1 + first.toList.count '\n')) (pieces second.toList) := by
      rw [Nat.add_comm 1 (1 + _)]
      rfl
    rw [htext, pieces_append_line h, scanErrors_append, text_pieces, hline, scanErrors_add,
      errorsIn_eq, errorsIn_eq]
  have htokens : scanTokens (pieces (first ++ "\n" ++ second).toList) =
      scanTokens (pieces first.toList) ++ scanTokens (pieces second.toList) := by
    rw [htext, pieces_append_line h, scanTokens, List.filterMap_append]
    rfl
  rw [scan_eq, herrors, htokens]
  simp only [List.append_eq_nil_iff, List.map_eq_nil_iff]
  split_ifs with hnone
  · rw [tokensIn_eq hnone.1, tokensIn_eq hnone.2]
  · rfl

/-- A closed string over two lines, text that starts nothing, and a string left open behind it. -/
theorem scan_lines_badTexts :
    (∀ line, .unterminated line ∉ errorsIn "\"a\nb\" x @@") ∧
      scan ("\"a\nb\" x @@" ++ "\n" ++ "/ \"") = .error [.invalid 2 "@@", .unterminated 3] := by
  have hfirst : errorsIn "\"a\nb\" x @@" = [.invalid 2 "@@"] := by decide +kernel
  have hsecond : errorsIn "/ \"" = [.unterminated 1] := by decide +kernel
  have hclosed : ∀ line, .unterminated line ∉ errorsIn "\"a\nb\" x @@" := by
    simp [hfirst]
  have hlines := scan_lines _ "/ \"" hclosed
  rw [hfirst, hsecond] at hlines
  exact ⟨hclosed, hlines.trans (by decide)⟩

end Lexical

end ModuleScript
