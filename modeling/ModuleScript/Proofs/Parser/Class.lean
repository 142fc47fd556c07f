import ModuleScript.Proofs.Parser.Block

/-!
Class declarations. The parser reads methods, then perhaps the constructor and more methods; the
grammar has members in any order, with at most one constructor among them (`members_iff`).
-/

namespace ModuleScript

namespace Parser

open Grammar

variable {n : Nat} {stmt : Parser (List Stmt)}

inductive MethodText (stmt : Texts (List Stmt)) : Texts (Name × Routine Stmt)
  | mk {u : List Token} {r : Routine Stmt} (x : Name) :
      RoutineText stmt u r → MethodText stmt (.identifier x :: u) (x, r)

/-- Without a constructor, members are methods. -/
theorem many_method_of_many_member {stmt : Texts (List Stmt)} {u : List Token}
    {members : List Member} (h : Many (MemberText stmt) u members)
    (hnone : members.filterMap Member.construct? = []) :
    Many (MethodText stmt) u (members.filterMap Member.method?) := by
  induction h with
  | nil => exact .nil
  | cons hm _ ih =>
    cases hm with
    | construct _ => cases hnone
    | method x hr => exact .cons (.mk x hr) (ih hnone)

theorem many_member_of_many_method {stmt : Texts (List Stmt)} {u : List Token}
    {methods : List (Name × Routine Stmt)} (h : Many (MethodText stmt) u methods) :
    Many (MemberText stmt) u (methods.map fun p => .method p.1 p.2) := by
  induction h with
  | nil => exact .nil
  | cons hm _ ih =>
    cases hm with
    | mk x hr => exact .cons (.method x hr) ih

theorem filterMap_construct?_methods (methods : List (Name × Routine Stmt)) :
    (methods.map fun p => Member.method p.1 p.2).filterMap Member.construct? = [] := by
  simp [List.filterMap_map, Function.comp_def, Member.construct?]

theorem filterMap_method?_methods (methods : List (Name × Routine Stmt)) :
    (methods.map fun p => Member.method p.1 p.2).filterMap Member.method? = methods := by
  simp [List.filterMap_map, Function.comp_def, Member.method?]

theorem members_iff {stmt : Texts (List Stmt)} {u : List Token} {construct : Routine Stmt}
    {methods : List (Name × Routine Stmt)} :
    (∃ members, Many (MemberText stmt) u members ∧
      (members.filterMap Member.construct?).length ≤ 1 ∧
        construct = (members.filterMap Member.construct?).headD ⟨[], []⟩ ∧
          methods = members.filterMap Member.method?) ↔
      (Many (MethodText stmt) u methods ∧ construct = ⟨[], []⟩) ∨
      ∃ v w x before after, u = v ++ .keyword .constructor_ :: w ++ x ∧
        Many (MethodText stmt) v before ∧ RoutineText stmt w construct ∧
          Many (MethodText stmt) x after ∧ methods = before ++ after := by
  constructor
  · rintro ⟨members, hm, hone, rfl, rfl⟩
    induction hm with
    | nil => exact .inl ⟨.nil, rfl⟩
    | cons hm hrest ih =>
      cases hm with
      | construct hr =>
        -- this is the one constructor, so no other follows
        have hnone := List.length_eq_zero_iff.1 (Nat.le_zero.1 (Nat.le_of_succ_le_succ hone))
        exact .inr ⟨[], _, _, [], _, rfl, .nil, hr, many_method_of_many_member hrest hnone, rfl⟩
      | method x hr =>
        rcases ih hone with ⟨hms, hc⟩ | ⟨v, w, y, before, after, rfl, hv, hw, hy, hms⟩
        · exact .inl ⟨.cons (.mk x hr) hms, hc⟩
        · refine .inr ⟨_, w, y, (x, _) :: before, after, ?_, .cons (.mk x hr) hv, hw, hy, ?_⟩
          · simp
          · exact congrArg ((x, _) :: ·) hms
  · rintro (⟨hms, rfl⟩ | ⟨v, w, x, before, after, rfl, hv, hw, hx, rfl⟩)
    · refine ⟨_, many_member_of_many_method hms, ?_⟩
      rw [filterMap_construct?_methods, filterMap_method?_methods]
      exact ⟨Nat.zero_le 1, rfl, rfl⟩
    · have hm := many_append (many_member_of_many_method hv)
        (.cons (.construct hw) (many_member_of_many_method hx))
      have hone : Member.construct? (.construct construct) = some construct := rfl
      have hnone : Member.method? (.construct construct) = none := rfl
      refine ⟨_, by simpa using hm, ?_⟩
      rw [List.filterMap_append, List.filterMap_append, List.filterMap_cons_some hone,
        List.filterMap_cons_none hnone, filterMap_construct?_methods, filterMap_construct?_methods,
        filterMap_method?_methods, filterMap_method?_methods]
      exact ⟨Nat.le_refl 1, rfl, rfl⟩

theorem startMethod?_reads (h : Reads n stmt Statement never) :
    StartReads n (startMethod? stmt) (MethodText Statement) never where
  reads := by
    intro t p hp
    cases t with
    | identifier x =>
      cases hp
      have hr := map_reads (reads_mono (routine_reads h) (Nat.le_succ n)) (x, ·)
      refine hr.congr fun u method => ?_
      constructor
      · rintro ⟨x, hu⟩
        exact ⟨_, hu, rfl⟩
      · rintro ⟨r, hr, rfl⟩
        exact .mk x hr
    | _ => cases hp
  starts := by
    rintro u _ ⟨x, hu⟩
    exact ⟨_, _, rfl, rfl⟩

theorem methods_reads (h : Reads n stmt Statement never) :
    Reads (n + 1) (many (startMethod? stmt)) (Many (MethodText Statement))
      (starts (startMethod? stmt)) := by
  intro ts hn
  exact many_eq_ok_iff (startMethod?_reads h) (fun _ _ => rfl) (by simp) (Nat.le_of_lt_succ hn)
    (stops_never ts)

theorem classEnd_eq_ok_iff {ts rest : List Token} {a : Unit} :
    classEnd ts = .ok (a, rest) ↔ ts = .symbol .closeBrace :: rest := by
  constructor
  · intro h
    unfold classEnd at h
    split at h
    · cases h
      rfl
    · cases h
    · cases h
  · rintro rfl
    rfl

theorem members_reads (h : Reads n stmt Statement never) :
    Reads n (members stmt)
      (fun u p => ∃ v, u = v ++ [.symbol .closeBrace] ∧ ∃ members,
        Many (MemberText Statement) v members ∧
          (members.filterMap Member.construct?).length ≤ 1 ∧
            p.1 = (members.filterMap Member.construct?).headD ⟨[], []⟩ ∧
              p.2 = members.filterMap Member.method?) never := by
  have hend (p : Routine Stmt × List (Name × Routine Stmt)) :
      Reads n (do classEnd; pure p) (fun u q => u = [.symbol .closeBrace] ∧ q = p) never := by
    have hclass : Reads n classEnd (fun u _ => u = [.symbol .closeBrace]) never := by
      intro ts _ a rest
      simp [classEnd_eq_ok_iff]
    exact (map_reads hclass fun _ => p).congr fun u q => by simp
  -- methods, then either the end or the constructor, more methods and the end
  have hmethods := reads_mono (methods_reads h) (Nat.le_succ n)
  have hafter (before : List (Name × Routine Stmt)) (construct : Routine Stmt) :=
    bind_reads_of_stops hmethods (fun after => hend (construct, before ++ after)) (by
      rintro after _ _ rest ⟨rfl, -⟩ -
      rfl)
  have hroutine := reads_mono (routine_reads h) (Nat.le_succ n)
  have hchoice (before : List (Name × Routine Stmt)) :=
    accept_bind_reads (.keyword .constructor_) (bind_reads hroutine (hafter before))
      (hend (⟨[], []⟩, before)) (by
        rintro _ _ ⟨rfl, -⟩
        exact ⟨_, _, rfl, by decide⟩)
  have hall := bind_reads_of_stops hmethods hchoice (by
    rintro before _ _ rest (⟨_, rfl, -⟩ | ⟨rfl, -⟩) - <;> rfl)
  refine hall.congr fun u p => ?_
  simp only [members_iff]
  constructor
  · rintro ⟨_, rfl, ⟨hv, hc⟩ | ⟨v, w, x, before, after, rfl, hv, hw, hx, hm⟩⟩
    · exact ⟨_, _, _, rfl, hv, .inr ⟨rfl, Prod.ext hc rfl⟩⟩
    · exact ⟨v, _, before, by simp, hv, .inl ⟨_, rfl, w, _, _, rfl, hw, x, _, after, rfl, hx, rfl,
        Prod.ext rfl hm⟩⟩
  · rintro ⟨v, _, before, rfl, hv, ⟨_, rfl, w, _, construct, rfl, hw, x, _, after, rfl, hx, rfl,
      rfl⟩ | ⟨rfl, rfl⟩⟩
    · exact ⟨_, by simp, .inr ⟨v, w, x, before, after, rfl, hv, hw, hx, rfl⟩⟩
    · exact ⟨v, rfl, .inl ⟨hv, rfl⟩⟩

theorem classDeclaration_reads (h : Reads n stmt Statement never) :
    Reads n (classDeclaration stmt)
      (fun u body => ∃ x v members, u = .identifier x :: inBraces v ∧
        Many (MemberText Statement) v members ∧
          (members.filterMap Member.construct?).length ≤ 1 ∧
            body = [.classDecl x ((members.filterMap Member.construct?).headD ⟨[], []⟩)
              (members.filterMap Member.method?)]) never := by
  have hm := identifier_bind_reads fun x => expect_bind_reads (.symbol .openBrace)
    (map_reads (members_reads h) fun p => [Stmt.classDecl x p.1 p.2])
  refine (reads_mono hm (by omega)).congr fun u body => ?_
  constructor
  · rintro ⟨x, v, members, rfl, hm, hone, rfl⟩
    exact ⟨x, _, rfl, _, rfl, (_, _), ⟨v, rfl, members, hm, hone, rfl, rfl⟩, rfl⟩
  · rintro ⟨x, _, rfl, _, rfl, ⟨construct, methods⟩, ⟨v, rfl, members, hm, hone, rfl, rfl⟩, rfl⟩
    exact ⟨x, v, members, rfl, hm, hone, rfl⟩

end Parser

end ModuleScript
