import Mathlib.Data.List.DropRight
import ModuleScript.Native
import ModuleScript.Proofs.Number.Spelling
import ModuleScript.Proofs.Source.Writing

/-!
Numbers in strings and in source texts. A string is read as a number exactly when it spells one,
blanks around it apart, and a numeral is one and the same number to the scanner and to whoever reads
it as a string. Main statement: `parseNum_exact`.
-/

namespace ModuleScript

namespace Numeric

open Lexical

/-- The second text is the first one without the blanks at its ends. -/
inductive Trims : List Char → List Char → Prop
  | mk {before u after : List Char} :
      (∀ c ∈ before, isBlank c = true) → (∀ c ∈ after, isBlank c = true) →
        (∀ c, u.head? = some c → isBlank c = false) →
          (∀ c, u.getLast? = some c → isBlank c = false) → Trims (before ++ u ++ after) u

variable {cs u before after : List Char} {v : Value} {host : Host} {x : Float}

/-! Trimming -/

theorem not_isBlank_of_head?_dropWhile (cs : List Char) :
    ∀ c, (cs.dropWhile isBlank).head? = some c → isBlank c = false := by
  intro c hc
  have hstop := List.head?_dropWhile_not isBlank cs
  rw [hc] at hstop
  exact hstop

theorem trims_trimBlanks (cs : List Char) : Trims cs (trimBlanks cs) := by
  have hfront : cs.takeWhile isBlank ++ cs.dropWhile isBlank = cs :=
    List.takeWhile_append_dropWhile
  have hback : trimBlanks cs ++ (cs.dropWhile isBlank).rtakeWhile isBlank =
      cs.dropWhile isBlank := List.rdropWhile_append_rtakeWhile ..
  have htrims : Trims (cs.takeWhile isBlank ++ trimBlanks cs ++
      (cs.dropWhile isBlank).rtakeWhile isBlank) (trimBlanks cs) := by
    refine .mk (fun c hc => List.mem_takeWhile_imp hc) (fun c hc => List.mem_rtakeWhile_imp hc)
      (fun c hc => ?_) fun c hc => ?_
    · refine not_isBlank_of_head?_dropWhile cs c ?_
      rw [← hback, List.head?_append, hc, Option.some_or]
    · rw [trimBlanks, List.getLast?_reverse] at hc
      exact not_isBlank_of_head?_dropWhile _ c hc
  rwa [List.append_assoc, hback, hfront] at htrims

theorem Trims.eq_trimBlanks (h : Trims cs u) : u = trimBlanks cs := by
  obtain ⟨hbefore, hafter, hhead, hlast⟩ := h
  rename_i before after
  cases u with
  | nil =>
    have hnone : (before ++ [] ++ after).dropWhile isBlank = [] := by
      rw [List.append_nil, List.dropWhile_eq_nil_iff]
      exact List.forall_mem_append.mpr ⟨hbefore, hafter⟩
    rw [trimBlanks, hnone]
    rfl
  | cons c u =>
    have hstop : ∀ d, (c :: u ++ after).head? = some d → isBlank d = false := hhead
    have hfront := (takeWhile_append_of_stop hbefore hstop).2
    have hback : ((c :: u ++ after).reverse.dropWhile isBlank) = (c :: u).reverse := by
      rw [List.reverse_append]
      refine (takeWhile_append_of_stop (fun d hd => hafter d (List.mem_reverse.mp hd)) ?_).2
      simpa only [List.head?_reverse] using hlast
    rw [trimBlanks, List.append_assoc, hfront, hback, List.reverse_reverse]

theorem trims_iff : Trims cs u ↔ u = trimBlanks cs :=
  ⟨Trims.eq_trimBlanks, fun h => h ▸ trims_trimBlanks cs⟩

/-! Numbers in strings -/

theorem spelledNumber?_eq_some_iff :
    spelledNumber? v = some x ↔ ∃ s u, v = .string s ∧ Trims s.toList u ∧ Spells u x := by
  simp only [trims_iff, ← readNumber?_eq_some_iff]
  constructor
  · intro h
    cases v with
    | string s => exact ⟨s, _, rfl, rfl, h⟩
    | _ => cases h
  · rintro ⟨s, _, rfl, rfl, h⟩
    exact h

theorem fields_eq_of_newObject_eq {fields fields' : List (Name × Value)}
    (h : host.newObject fields = host.newObject fields') :
    Table.ofList fields = Table.ofList fields' := by
  have hheap : host.heap.alloc (.ofList fields) = host.heap.alloc (.ofList fields') :=
    congrArg (·.2.heap) h
  have hfields := congrArg (·.fields host.heap.next) hheap
  simpa only [Heap.fields_alloc, if_pos] using hfields

theorem parseNum_eq_success_iff :
    parseNum v host = host.newObject [("success", .boolean true), ("value", .number x)] ↔
      spelledNumber? v = some x := by
  unfold parseNum
  split
  · rename_i y hy
    rw [hy]
    refine ⟨fun h => ?_, fun h => by rw [Option.some.inj h]⟩
    have hvalue := congrArg (·.find? "value") (fields_eq_of_newObject_eq h)
    obtain rfl := Value.number.inj (Option.some.inj hvalue)
    rfl
  · rename_i hnone
    rw [hnone]
    refine ⟨fun h => ?_, nofun⟩
    cases congrArg (·.find? "success") (fields_eq_of_newObject_eq h)

theorem parseNum_eq_failure_iff :
    parseNum v host = host.newObject [("success", .boolean false)] ↔ spelledNumber? v = none := by
  unfold parseNum
  split
  · rename_i y hy
    rw [hy]
    refine ⟨fun h => ?_, nofun⟩
    cases congrArg (·.find? "success") (fields_eq_of_newObject_eq h)
  · rename_i hnone
    exact iff_of_true rfl hnone

/-! Numerals in source texts -/

theorem layout_of_blanks (h : ∀ c ∈ cs, isBlank c = true) : Layout cs := by
  induction cs with
  | nil => exact .nil
  | cons c cs ih =>
    obtain ⟨hc, hcs⟩ := List.forall_mem_cons.mp h
    exact .blank hc (ih hcs)

theorem scan_lexeme {source : String} {t : Token} (hu : Lexeme u t)
    (hbefore : ∀ c ∈ before, isBlank c = true) (hafter : ∀ c ∈ after, isBlank c = true)
    (hsource : source.toList = before ++ u ++ after) : scan source = .ok [t] := by
  obtain ⟨ps, hps, hnone⟩ := (layout_of_blanks hafter).splits .nil
  rw [List.append_nil, List.append_nil] at hps
  obtain ⟨c, w, rfl, -⟩ := exists_shape hu
  have hpiece : PieceAt (.token t) (c :: w) after :=
    pieceAt_of_lexeme hu fun d hd => hafter d (List.mem_of_mem_head? hd)
  have htoken := Splits.cons (p := ⟨.token t, c, w⟩) hpiece hps
  obtain ⟨qs, hqs, hnone'⟩ := (layout_of_blanks hbefore).splits htoken
  refine scan_eq_ok_iff.mpr ⟨qs ++ ⟨.token t, c, w⟩ :: ps, ?_, ?_, ?_⟩
  · rw [hsource, List.append_assoc]
    exact hqs
  · exact List.forall_mem_append.mpr ⟨fun q hq => (hnone' q hq).1,
      List.forall_mem_cons.mpr ⟨rfl, fun q hq => (hnone q hq).1⟩⟩
  · have hfront : qs.filterMap Piece.token? = [] :=
      List.filterMap_eq_nil_iff.mpr fun q hq => (hnone' q hq).2
    have hback : ps.filterMap Piece.token? = [] :=
      List.filterMap_eq_nil_iff.mpr fun q hq => (hnone q hq).2
    have htoken : Piece.token? ⟨.token t, c, w⟩ = some t := rfl
    rw [List.filterMap_append, List.filterMap_cons_some htoken, hfront, hback, List.nil_append]

theorem trims_of_numeral (hu : Numeral u) (hbefore : ∀ c ∈ before, isBlank c = true)
    (hafter : ∀ c ∈ after, isBlank c = true) : Trims (before ++ u ++ after) u :=
  .mk hbefore hafter (fun c hc => hu.not_isBlank c (List.mem_of_mem_head? hc))
    fun c hc => hu.not_isBlank c (List.mem_of_mem_getLast? hc)

/--
A text without the blanks at its ends is always there, and there is one. Reading a value as a number
succeeds with a number just when the value is a string whose text, trimmed so, spells that number;
it fails just when the value is no such string. Every numeral spells a number; scanning it gives the
one token of that number, whatever blanks stand around it, and reading the same text succeeds with
the same number.
-/
theorem parseNum_exact :
    (∀ cs, ∃ u, ∀ v, Trims cs v ↔ v = u) ∧
    (∀ v host x,
      parseNum v host = host.newObject [("success", .boolean true), ("value", .number x)] ↔
        ∃ s u, v = .string s ∧ Trims s.toList u ∧ Spells u x) ∧
    (∀ v host, parseNum v host = host.newObject [("success", .boolean false)] ↔
      ¬∃ s u x, v = .string s ∧ Trims s.toList u ∧ Spells u x) ∧
    ∀ u, Numeral u → ∃ x, Spells u x ∧ ∀ (source : String) before after,
      source.toList = before ++ u ++ after → (∀ c ∈ before, isBlank c = true) →
        (∀ c ∈ after, isBlank c = true) →
          scan source = .ok [.number x] ∧ ∀ host, parseNum (.string source) host =
            host.newObject [("success", .boolean true), ("value", .number x)] := by
  refine ⟨fun cs => ⟨_, fun v => trims_iff⟩, fun v host x => ?_, fun v host => ?_, fun u hu => ?_⟩
  · rw [parseNum_eq_success_iff, spelledNumber?_eq_some_iff]
  · rw [parseNum_eq_failure_iff, Option.eq_none_iff_forall_ne_some]
    simp only [ne_eq, spelledNumber?_eq_some_iff, not_exists]
    exact ⟨fun h s u x => h x s u, fun h x s u => h s u x⟩
  · obtain ⟨x, hx⟩ := hu.exists_readNumber?
    have hspells : Spells u x := readNumber?_eq_some_iff.mp hx
    refine ⟨x, hspells, fun source before after hsource hbefore hafter => ?_⟩
    refine ⟨scan_lexeme (.number hu hx) hbefore hafter hsource, fun host => ?_⟩
    have htrims : Trims source.toList u := hsource ▸ trims_of_numeral hu hbefore hafter
    exact parseNum_eq_success_iff.mpr
      (spelledNumber?_eq_some_iff.mpr ⟨source, u, rfl, htrims, hspells⟩)

/-- The numeral of this text is the same number to the scanner and to the reader. -/
theorem exists_number_padded : ∃ x, scan "\t2.50 \n" = .ok [.number x] ∧
    ∀ host, parseNum (.string "\t2.50 \n") host =
      host.newObject [("success", .boolean true), ("value", .number x)] := by
  have hnumeral : Numeral "2.50".toList :=
    .fraction (List.cons_ne_nil '2' []) (List.all_eq_true.mp rfl)
      (List.cons_ne_nil '5' ['0']) (List.all_eq_true.mp rfl)
  obtain ⟨x, -, hboth⟩ := parseNum_exact.2.2.2 _ hnumeral
  exact ⟨x, hboth _ ['\t'] [' ', '\n'] rfl (List.all_eq_true.mp rfl) (List.all_eq_true.mp rfl)⟩

end Numeric

end ModuleScript
