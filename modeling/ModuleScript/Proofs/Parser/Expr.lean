import ModuleScript.Proofs.Parser.Reading

/-!
The expression parser reads the expressions of the grammar. An expression ends in front of a token
that is neither a binary operator nor the start of a call or a field access, and such a token is
where the parser stops. Main statement: `expression_eq_ok_iff`.
-/

namespace ModuleScript

namespace Parser

open Grammar

/-- Tokens that continue an expression whose operators have rank at most `k`. -/
def continues (k : Nat) : Token → Bool
  | .symbol s => s = .openParen || s = .dot || (BinaryOp.ofSymbol? s).any (·.rank ≤ k)
  | _ => false

section Starts

variable {expr : Texts Expr} {u : List Token} {e : Expr} {k : Nat}

theorem start_of_operand (h : Operand expr u e) :
    ∃ t v, u = t :: v ∧ startsExpression t = true ∧ startSign? t = none := by
  cases h <;> exact ⟨_, _, rfl, rfl, rfl⟩

theorem start_of_trailed (h : Trailed expr u e) :
    ∃ t v, u = t :: v ∧ startsExpression t = true ∧ startSign? t = none := by
  induction h with
  | operand h => exact start_of_operand h
  | call _ _ ih =>
    obtain ⟨t, v, rfl, ht⟩ := ih
    exact ⟨t, _, rfl, ht⟩
  | get _ ih =>
    obtain ⟨t, v, rfl, ht⟩ := ih
    exact ⟨t, _, rfl, ht⟩

theorem start_of_signed (h : Signed expr u e) :
    ∃ t v, u = t :: v ∧ startsExpression t = true := by
  cases h with
  | trailed h =>
    obtain ⟨t, v, hu, ht, -⟩ := start_of_trailed h
    exact ⟨t, v, hu, ht⟩
  | sign op _ => exact ⟨_, _, rfl, by cases op <;> rfl⟩

theorem start_of_joined (h : Joined expr k u e) :
    ∃ t v, u = t :: v ∧ startsExpression t = true := by
  induction h with
  | signed h => exact start_of_signed h
  | tighter _ ih => exact ih
  | binary _ _ _ _ ih =>
    obtain ⟨t, v, rfl, ht⟩ := ih
    exact ⟨t, _, rfl, ht⟩

theorem start_of_expression (h : Expression u e) :
    ∃ t v, u = t :: v ∧ startsExpression t = true := start_of_joined (expression_iff.1 h)

end Starts

/-! The rules of the grammar that refer to themselves, as repetitions -/

section Repetition

variable {expr : Texts Expr} {u : List Token} {e : Expr}

inductive TrailerText (expr : Texts Expr) : Texts Trailer
  | call {u : List Token} {args : List Expr} :
      Items expr u args → TrailerText expr (inParens u) (.call args)
  | get (x : Name) : TrailerText expr [.symbol .dot, .identifier x] (.get x)

def SignText : Texts UnaryOp := fun u op => u = [.symbol op.symbol]

def BinaryText (expr : Texts Expr) (k : Nat) : Texts (BinaryOp × Expr) := fun u p =>
  ∃ v, u = .symbol p.1.symbol :: v ∧ p.1.rank = k + 1 ∧ Joined expr k v p.2

theorem many_append {α : Type} {item : Texts α} {u v : List Token} {as bs : List α}
    (hu : Many item u as) (hv : Many item v bs) : Many item (u ++ v) (as ++ bs) := by
  induction hu with
  | nil => exact hv
  | cons h _ ih =>
    rw [List.append_assoc]
    exact .cons h ih

theorem many_singleton {α : Type} {item : Texts α} {u : List Token} {a : α} (h : item u a) :
    Many item u [a] := by
  simpa using Many.cons h .nil

theorem trailed_append {w : List Token} {trailers : List Trailer}
    (hw : Many (TrailerText expr) w trailers) (hu : Trailed expr u e) :
    Trailed expr (u ++ w) (trailers.foldl Trailer.apply e) := by
  induction hw generalizing u e with
  | nil => simpa using hu
  | cons h _ ih =>
    rw [← List.append_assoc]
    cases h with
    | call hargs => exact ih (.call hu hargs)
    | get x => exact ih (.get hu)

theorem trailed_iff : Trailed expr u e ↔ ∃ v w first trailers, u = v ++ w ∧ Operand expr v first ∧
    Many (TrailerText expr) w trailers ∧ e = trailers.foldl Trailer.apply first := by
  constructor
  · intro h
    -- A call or a field access is one more trailer at the end.
    have snoc {v w t : List Token} {first : Expr} {trailers : List Trailer} {trailer : Trailer}
        (hw : Many (TrailerText expr) w trailers) (ht : TrailerText expr t trailer) :
        v ++ w ++ t = v ++ (w ++ t) ∧ Many (TrailerText expr) (w ++ t) (trailers ++ [trailer]) ∧
          trailer.apply (trailers.foldl Trailer.apply first) =
            (trailers ++ [trailer]).foldl Trailer.apply first :=
      ⟨List.append_assoc .., many_append hw (many_singleton ht), by simp⟩
    induction h with
    | operand h => exact ⟨_, [], _, [], by simp, h, .nil, rfl⟩
    | call _ hargs ih =>
      obtain ⟨v, w, first, trailers, rfl, hv, hw, rfl⟩ := ih
      obtain ⟨hu, hm, he⟩ := snoc hw (.call hargs)
      exact ⟨v, _, first, _, hu, hv, hm, he⟩
    | get _ ih =>
      obtain ⟨v, w, first, trailers, rfl, hv, hw, rfl⟩ := ih
      obtain ⟨hu, hm, he⟩ := snoc hw (.get _)
      exact ⟨v, _, first, _, hu, hv, hm, he⟩
  · rintro ⟨v, w, first, trailers, rfl, hv, hw, rfl⟩
    exact trailed_append hw (.operand hv)

theorem signed_iff : Signed expr u e ↔ ∃ v w signs operand, u = v ++ w ∧ Many SignText v signs ∧
    Trailed expr w operand ∧ e = signs.foldr Expr.unary operand := by
  constructor
  · intro h
    induction h with
    | trailed h => exact ⟨[], _, [], _, rfl, .nil, h, rfl⟩
    | sign op _ ih =>
      obtain ⟨v, w, signs, operand, rfl, hv, hw, rfl⟩ := ih
      have hop : SignText [.symbol op.symbol] op := rfl
      exact ⟨_, w, _, operand, rfl, .cons hop hv, hw, rfl⟩
  · rintro ⟨v, w, signs, operand, rfl, hv, hw, rfl⟩
    induction hv with
    | nil => exact .trailed hw
    | cons h _ ih =>
      obtain rfl := h
      exact .sign _ ih

theorem joined_append {k : Nat} {w : List Token} {rest : List (BinaryOp × Expr)}
    (hw : Many (BinaryText expr k) w rest) (hu : Joined expr (k + 1) u e) :
    Joined expr (k + 1) (u ++ w) (rest.foldl (fun left p => .binary p.1 left p.2) e) := by
  induction hw generalizing u e with
  | nil => simpa using hu
  | cons h _ ih =>
    obtain ⟨v, rfl, hop, hright⟩ := h
    rw [← List.append_assoc]
    exact ih (.binary _ hop hu hright)

theorem joined_zero_iff : Joined expr 0 u e ↔ Signed expr u e := by
  constructor
  · intro h
    cases h with
    | signed h => exact h
  · exact .signed

theorem joined_succ_iff {k : Nat} : Joined expr (k + 1) u e ↔ ∃ v w first rest, u = v ++ w ∧
    Joined expr k v first ∧ Many (BinaryText expr k) w rest ∧
      e = rest.foldl (fun left p => .binary p.1 left p.2) first := by
  constructor
  · intro h
    -- the induction needs the rank as a variable
    generalize hk : k + 1 = k' at h
    induction h with
    | signed => cases hk
    | tighter h _ =>
      cases hk
      exact ⟨_, [], _, [], by simp, h, .nil, rfl⟩
    | binary op hop _ hright ih _ =>
      cases hk
      obtain ⟨v, w, first, rest, rfl, hv, hw, rfl⟩ := ih rfl
      have hb : BinaryText expr k _ (op, _) := ⟨_, rfl, hop, hright⟩
      exact ⟨v, _, first, _, List.append_assoc .., hv, many_append hw (many_singleton hb), by simp⟩
  · rintro ⟨v, w, first, rest, rfl, hv, hw, rfl⟩
    exact joined_append hw (.tighter hv)

end Repetition

/-! Where expressions end -/

section Ends

variable {k : Nat} {p : Parser Expr} {t : Token} {ts : List Token}

theorem starts_startTrailer? : starts (startTrailer? p) t = continues 0 t := by
  cases t with
  | symbol s => cases s <;> rfl
  | _ => rfl

theorem starts_startBinary?_symbol (s : Symbol) :
    starts (startBinary? k p) (.symbol s) = (BinaryOp.ofSymbol? s).any (·.rank = k) := by
  cases h : BinaryOp.ofSymbol? s with
  | none => simp [starts, startBinary?, h]
  | some op => by_cases hk : op.rank = k <;> simp [starts, startBinary?, h, hk]

theorem continues_succ (p : Parser Expr) :
    continues (k + 1) t = (continues k t || starts (startBinary? (k + 1) p) t) := by
  cases t with
  | symbol s =>
    rw [starts_startBinary?_symbol, continues, continues, Bool.or_assoc (_ || _)]
    congr 1
    cases BinaryOp.ofSymbol? s with
    | none => rfl
    | some op => simp [Nat.le_succ_iff, Bool.decide_or]
  | _ => rfl

theorem stops_continues_zero_iff :
    Stops (continues 0) ts ↔ Stops never ts ∧ Stops (starts (startTrailer? p)) ts := by
  cases ts with
  | nil => simp
  | cons t ts => simp [starts_startTrailer?, never]

theorem stops_continues_succ_iff (p : Parser Expr) : Stops (continues (k + 1)) ts ↔
    Stops (continues k) ts ∧ Stops (starts (startBinary? (k + 1) p)) ts := by
  cases ts with
  | nil => simp
  | cons t ts => simp [continues_succ p]

theorem continues_eq_false_of_starts (h : starts (startBinary? (k + 1) p) t = true) :
    continues k t = false := by
  cases t with
  | symbol s =>
    rw [starts_startBinary?_symbol] at h
    cases s <;> simp_all [continues, BinaryOp.ofSymbol?]
  | _ => rfl

end Ends

/-! What each parser reads, given that nested expressions are read -/

def StartsExpressions (E : Texts Expr) : Prop :=
  ∀ u e, E u e → ∃ t v, u = t :: v ∧ startsExpression t = true

theorem startsExpressions_expression : StartsExpressions Expression :=
  fun _ _ => start_of_expression

section Reading

variable {n : Nat} {expr : Parser Expr} {E : Texts Expr}

theorem startField?_reads (h : Reads n expr E (continues 6)) :
    StartReads n (startField? expr) (Field E) (continues 6) where
  reads := by
    intro t p hp
    cases t with
    | identifier x =>
      cases hp
      have hvalue := expect_bind_reads (.symbol .colon) (map_reads h (x, ·))
      refine (reads_mono hvalue (Nat.le_succ n)).congr fun u field => ?_
      constructor
      · intro hu
        cases hu with
        | mk hu => exact ⟨_, rfl, _, hu, rfl⟩
      · rintro ⟨v, rfl, e, hv, rfl⟩
        exact .mk hv
    | _ => cases hp
  starts := by
    rintro u a ⟨hu⟩
    exact ⟨_, _, rfl, rfl⟩

theorem startExpression?_reads {c : Token → Bool} (hE : StartsExpressions E)
    (h : Reads n expr E c) :
    StartReads (n - 1) (startExpression? expr) E c := by
  refine startReads_of_unread h ?_ ?_
  · intro t q hq
    rw [startExpression?] at hq
    split at hq
    · exact (Option.some.inj hq).symm
    · cases hq
  · intro u e hu
    obtain ⟨t, v, rfl, ht⟩ := hE u e hu
    exact ⟨t, v, rfl, by simp [starts, startExpression?, ht]⟩

theorem operand_reads (h : Reads n expr E (continues 6)) :
    Reads (n + 1) (operand expr) (Operand E) never := by
  have hparens := followedBy_reads h (.symbol .closeParen) rfl id
  have hclose : Closes (.symbol .closeBrace) (startField? expr) (continues 6) :=
    ⟨by decide, rfl, rfl, rfl⟩
  have hfields := listUntil_reads (startField?_reads h) hclose
  intro ts hn e rest
  constructor
  · intro ho
    unfold operand at ho
    -- parentheses and braces nest; every other operand is one token
    split at ho
    case h_7 ts =>
      obtain ⟨w, rfl, ⟨u, e, rfl, hu, rfl⟩, -⟩ := (hparens ts (Nat.lt_of_succ_lt_succ hn) _ _).1 ho
      exact ⟨inParens u, rfl, .parenthesised hu, stops_never _⟩
    case h_8 ts =>
      obtain ⟨fields, mid, hf, hp⟩ := bind_eq_ok_iff.1 ho
      cases hp
      obtain ⟨w, rfl, ⟨u, rfl, hu⟩, -⟩ := (hfields ts (Nat.lt_of_succ_lt hn) _ _).1 hf
      exact ⟨inBraces u, rfl, .object hu, stops_never _⟩
    case h_9 => cases ho
    all_goals
      cases ho
      exact ⟨[_], rfl, by constructor, stops_never _⟩
  · rintro ⟨u, rfl, hu, -⟩
    cases hu with
    | @parenthesised u e hu =>
      exact (hparens _ (Nat.lt_of_succ_lt_succ hn) _ _).2
        ⟨_, rfl, ⟨u, e, rfl, hu, rfl⟩, stops_never _⟩
    | @object u fields hu =>
      have hf := (hfields _ (Nat.lt_of_succ_lt hn) fields rest).2
        ⟨_, rfl, ⟨u, rfl, hu⟩, stops_never _⟩
      exact bind_eq_ok_iff.2 ⟨fields, rest, hf, rfl⟩
    | _ => rfl

theorem startTrailer?_reads (hE : StartsExpressions E) (h : Reads n expr E (continues 6)) :
    StartReads n (startTrailer? expr) (TrailerText E) never where
  reads := by
    intro t p hp
    unfold startTrailer? at hp
    split at hp
    · cases hp
      have hclose : Closes (.symbol .closeParen) (startExpression? expr) (continues 6) :=
        ⟨by decide, rfl, rfl, rfl⟩
      have hargs := listUntil_reads (startExpression?_reads hE h) hclose
      refine (map_reads (reads_mono hargs (by omega)) _).congr fun u trailer => ?_
      constructor
      · intro hu
        cases hu with
        | call hu => exact ⟨_, ⟨_, rfl, hu⟩, rfl⟩
      · rintro ⟨args, ⟨v, rfl, hv⟩, rfl⟩
        exact .call hv
    · cases hp
      have hname := identifier_bind_reads fun x => pure_reads n (Trailer.get x)
      refine (reads_mono hname (Nat.le_succ n)).congr fun u trailer => ?_
      constructor
      · intro hu
        cases hu with
        | get x => exact ⟨x, [], rfl, rfl, rfl⟩
      · rintro ⟨x, _, rfl, rfl, rfl⟩
        exact .get x
    · cases hp
  starts := by
    intro u a hu
    cases hu <;> exact ⟨_, _, rfl, rfl⟩

theorem trailed_reads (hE : StartsExpressions E) (h : Reads n expr E (continues 6)) :
    Reads (n + 1) (trailed expr) (Trailed E) (continues 0) := by
  refine (andThen_reads (operand_reads h) ?_ ?_ _).congr fun u e => trailed_iff
  · intro ts hn hts
    exact many_eq_ok_iff (startTrailer?_reads hE h) (fun _ _ => rfl)
      (fun _ => stops_continues_zero_iff) (Nat.le_of_lt_succ hn) hts
  · intro v trailers rest _ _
    exact stops_never _

theorem startSign?_reads (n : Nat) : StartReads n startSign? SignText never where
  reads := by
    intro t p hp ts hn op rest
    cases t with
    | symbol s =>
      obtain ⟨op', ho, rfl⟩ := Option.map_eq_some_iff.1 hp
      rw [pure_apply]
      constructor
      · intro h
        cases h
        rw [UnaryOp.ofSymbol?_eq_some_iff.1 ho]
        exact ⟨[], rfl, rfl, stops_never _⟩
      · rintro ⟨u, rfl, hu, -⟩
        obtain ⟨hs, rfl⟩ : s = op.symbol ∧ u = [] := by simpa [SignText] using hu
        rw [UnaryOp.ofSymbol?_eq_some_iff.2 hs] at ho
        cases ho
        rfl
    | _ => cases hp
  starts := by
    rintro u op rfl
    exact ⟨_, _, rfl, by cases op <;> rfl⟩

theorem signed_reads (hE : StartsExpressions E) (h : Reads n expr E (continues 6)) :
    Reads (n + 1) (signed expr) (Signed E) (continues 0) := by
  have hsigns : Reads (n + 1) (many startSign?) (Many SignText) (starts startSign?) := by
    intro ts hn signs rest
    exact many_eq_ok_iff (startSign?_reads _) (fun _ _ => rfl) (by simp) (Nat.le_of_lt hn)
      (stops_never ts) signs rest
  refine (andThen_reads hsigns ?_ ?_ _).congr fun u e => signed_iff
  · intro ts hn _
    exact trailed_reads hE h ts hn
  · intro v e rest hv _
    obtain ⟨t, v, rfl, -, ht⟩ := start_of_trailed hv
    simp [starts, ht]

theorem startBinary?_reads {k : Nat} {right : Parser Expr}
    (h : Reads n right (Joined E k) (continues k)) :
    StartReads n (startBinary? (k + 1) right) (BinaryText E k) (continues k) where
  reads := by
    intro t p hp
    cases t with
    | symbol s =>
      obtain ⟨op, ho, hp⟩ := Option.bind_eq_some_iff.1 hp
      split at hp
      · rename_i hop
        cases hp
        obtain rfl := BinaryOp.ofSymbol?_eq_some_iff.1 ho
        refine (map_reads h (op, ·)).congr fun u p => ?_
        constructor
        · rintro ⟨v, hv, hop', hu⟩
          obtain ⟨op', e⟩ := p
          obtain ⟨hs, rfl⟩ : op.symbol = op'.symbol ∧ u = v := by simpa using hv
          rw [BinaryOp.ofSymbol?_eq_some_iff.2 hs] at ho
          cases ho
          exact ⟨e, hu, rfl⟩
        · rintro ⟨e, hu, rfl⟩
          exact ⟨u, rfl, hop, hu⟩
      · cases hp
    | _ => cases hp
  starts := by
    rintro u ⟨op, e⟩ ⟨v, rfl, hop, hv⟩
    refine ⟨_, v, rfl, ?_⟩
    rw [starts_startBinary?_symbol, BinaryOp.ofSymbol?_eq_some_iff.2 rfl]
    exact decide_eq_true hop

theorem joined_reads (hE : StartsExpressions E) (h : Reads n expr E (continues 6)) (k : Nat) :
    Reads (n + 1) (joined expr k) (Joined E k) (continues k) := by
  induction k with
  | zero => exact (signed_reads hE h).congr fun u e => joined_zero_iff
  | succ k ih =>
    -- operands of tighter operators, and between them operators of this rank
    have hbin := startBinary?_reads ih
    refine (andThen_reads ih ?_ ?_ _).congr fun u e => joined_succ_iff
    · intro ts hn hts
      exact many_eq_ok_iff hbin (fun _ => continues_eq_false_of_starts)
        (fun _ => stops_continues_succ_iff _) (Nat.le_of_lt hn) hts
    · intro v rights rest hv hrest
      exact stops_append_of_many hbin (fun _ => continues_eq_false_of_starts) hv
        ((stops_continues_succ_iff (joined expr k)).1 hrest).1

end Reading

/-- A bound as long as the tokens is deep enough for every expression in them. -/
theorem expressionUpTo_reads (bound : List Token) :
    Reads (bound.length + 1) (expressionUpTo bound) Expression (continues 6) := by
  induction bound with
  | nil =>
    intro ts hn e rest
    obtain rfl : ts = [] := List.length_eq_zero_iff.1 (Nat.lt_one_iff.1 hn)
    constructor
    · intro h
      cases h
    · rintro ⟨u, hu, he, -⟩
      obtain ⟨t, v, rfl, -⟩ := start_of_expression he
      cases hu
  | cons b bound ih =>
    exact (joined_reads startsExpressions_expression ih 6).congr fun u e => expression_iff

theorem expression_reads (n : Nat) : Reads n expression Expression (continues 6) := by
  intro ts _ e rest
  exact expressionUpTo_reads ts ts (Nat.lt_succ_self _) e rest

theorem expression_eq_ok_iff {ts rest : List Token} {e : Expr} : expression ts = .ok (e, rest) ↔
    ∃ u, ts = u ++ rest ∧ Expression u e ∧ Stops (continues 6) rest :=
  expression_reads _ ts (Nat.lt_succ_self _) e rest

end Parser

end ModuleScript
