import Mathlib.Data.List.Infix
import ModuleScript.Proofs.Source.Pieces
import ModuleScript.Source.Scan

/-!
Texts and what is found in them. A text splits into pieces in one way only. Main statement:
`scan_specified`, scanning gives the tokens of the split, or one error for each bad piece on the
line where the piece begins.
-/

namespace ModuleScript

namespace Lexical

inductive Splits : List Char → List Piece → Prop
  | nil : Splits [] []
  | cons {p : Piece} {rest : List Char} {ps : List Piece} :
      PieceAt p.kind p.text rest → Splits rest ps → Splits (p.text ++ rest) (p :: ps)

def isBad : PieceKind → Bool
  | .invalid | .unterminated => true
  | _ => false

/-- Number of the line on which the text behind some pieces begins. -/
def lineAfter (before : List Piece) : Nat := 1 + (before.flatMap Piece.text).count '\n'

/-- What is reported about a piece behind others. -/
def report? (before : List Piece) (p : Piece) : Option ScanError :=
  match p.kind with
  | .invalid => some (.invalid (lineAfter before) (String.ofList p.text))
  | .unterminated => some (.unterminated (lineAfter before))
  | _ => none

def reports (ps : List Piece) : List ScanError :=
  (ps.inits.zip ps).filterMap fun q => report? q.1 q.2

theorem splits_iff {cs : List Char} {ps : List Piece} : Splits cs ps ↔ ps = pieces cs := by
  constructor
  · intro h
    induction h with
    | nil => rw [pieces]
    | @cons p rest ps hp _ ih =>
      have hcut := cut_eq_of_pieceAt hp
      have hfirst : Piece.first p.head (p.tail ++ rest) = p := by rw [Piece.first, hcut]
      rw [Piece.text, List.cons_append, pieces, hfirst, List.drop_left, ih]
  · rintro rfl
    fun_induction pieces cs with
    | case1 => exact .nil
    | case2 c cs ih =>
      have hfront := List.prefix_iff_eq_append.mp (Piece.cut_isPrefix c cs)
      have hp : PieceAt (Piece.first c cs).kind (Piece.first c cs).text _ :=
        pieceAt_cut hfront.symm
      have hsplits := Splits.cons hp ih
      rwa [Piece.text, List.cons_append, Piece.first, hfront] at hsplits

theorem lineAfter_append_singleton (before : List Piece) (p : Piece) :
    lineAfter (before ++ [p]) = lineAfter before + p.lineEnds := by
  simp [lineAfter, Piece.lineEnds, Nat.add_assoc]

theorem report?_eq_error? (before : List Piece) (p : Piece) :
    report? before p = p.error? (lineAfter before) := rfl

/-- The line counter of the scanner counts the line ends of the text before a piece. -/
theorem scanErrors_lineAfter (before ps : List Piece) :
    scanErrors (lineAfter before) ps =
      (ps.inits.zip ps).filterMap fun q => report? (before ++ q.1) q.2 := by
  induction ps generalizing before with
  | nil => rfl
  | cons p ps ih =>
    have hrest := ih (before ++ [p])
    rw [lineAfter_append_singleton] at hrest
    simp only [List.append_assoc, List.singleton_append] at hrest
    rw [scanErrors, hrest, List.inits_cons, List.zip_cons_cons, List.filterMap_cons,
      List.zip_map_left, List.filterMap_map, List.append_nil, report?_eq_error?]
    cases p.error? (lineAfter before) <;> rfl

theorem scanErrors_eq_reports (ps : List Piece) : scanErrors 1 ps = reports ps := by
  simpa [lineAfter, reports] using scanErrors_lineAfter [] ps

theorem isSome_report?_iff {before : List Piece} {p : Piece} :
    (report? before p).isSome = isBad p.kind := by
  unfold report? isBad
  cases p.kind <;> rfl

theorem length_reports (ps : List Piece) : (reports ps).length = ps.countP (isBad ·.kind) := by
  have hpairs : (ps.inits.zip ps).map Prod.snd = ps := by
    apply List.map_snd_zip
    rw [List.length_inits]
    exact Nat.le_succ _
  have hcount : ps.countP (isBad ·.kind) = (ps.inits.zip ps).countP fun q => isBad q.2.kind := by
    conv_lhs => rw [← hpairs]
    rw [List.countP_map]
    rfl
  rw [reports, List.length_filterMap_eq_countP, hcount]
  simp only [isSome_report?_iff]

theorem reports_eq_nil_iff {ps : List Piece} :
    reports ps = [] ↔ ∀ p ∈ ps, isBad p.kind = false := by
  rw [← List.length_eq_zero_iff, length_reports, List.countP_eq_zero]
  simp

theorem flatMap_text_of_splits {cs : List Char} {ps : List Piece} (h : Splits cs ps) :
    ps.flatMap Piece.text = cs := by
  induction h with
  | nil => rfl
  | cons _ _ ih => rw [List.flatMap_cons, ih]

theorem eq_nil_of_unterminated {cs : List Char} {before after : List Piece} {p : Piece}
    (h : Splits cs (before ++ p :: after)) (hp : p.kind = .unterminated) : after = [] := by
  induction before generalizing cs with
  | nil =>
    cases h with
    | cons hpiece hafter =>
      rw [hp] at hpiece
      generalize p.text = u at hpiece
      cases hpiece
      cases hafter
      rfl
  | cons q before ih =>
    cases h with
    | cons _ hrest => exact ih hrest

/--
Every text is split into pieces in one way. Without bad pieces scanning gives the tokens among the
pieces; otherwise it gives the reports on the bad ones, in their order.
-/
theorem scan_specified (source : String) :
    ∃ ps : List Piece, (∀ qs, Splits source.toList qs ↔ qs = ps) ∧
      ps.flatMap Piece.text = source.toList ∧
      (∀ before p after, ps = before ++ p :: after → p.kind = .unterminated → after = []) ∧
      (reports ps).length = ps.countP (isBad ·.kind) ∧
      scan source =
        if ∀ p ∈ ps, isBad p.kind = false then .ok (ps.filterMap Piece.token?)
        else .error (reports ps) := by
  have hsplits : Splits source.toList (pieces source.toList) := splits_iff.mpr rfl
  refine ⟨pieces source.toList, fun qs => splits_iff, flatMap_text_of_splits hsplits, ?_,
    length_reports _, ?_⟩
  · intro before p after hps hp
    exact eq_nil_of_unterminated (hps ▸ hsplits) hp
  · unfold scan
    simp only [scanErrors_eq_reports]
    split
    · rename_i hnone
      rw [if_pos (reports_eq_nil_iff.mp hnone)]
      rfl
    · rename_i hsome
      have hbad : ¬∀ p ∈ pieces source.toList, isBad p.kind = false := fun h =>
        hsome (reports_eq_nil_iff.mpr h)
      rw [if_neg hbad]

end Lexical

end ModuleScript
