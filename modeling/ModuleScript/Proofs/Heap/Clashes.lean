import ModuleScript.Proofs.Heap.Bisimulation
import ModuleScript.Proofs.Number.Equality

/-!
Faults of equality. Main statement: `equal?_fails_on_clash`, a comparison fails only on a pair that
it meets and that cannot be compared, and where there is no such pair it has one answer, whatever
the order of the fields and of the two values.
-/

namespace ModuleScript

namespace Value

/-- One of the values is a function, or they are of two kinds and neither is null. -/
def Clashes (l r : Value) : Prop :=
  l.isCallable = true ∨ r.isCallable = true ∨ l.kind ≠ r.kind ∧ l ≠ .null ∧ r ≠ .null

/-- What is wrong with such a pair: its first function, or that the kind on the right is another. -/
def clash (l r : Value) : Fault :=
  match [l, r].find? isCallable with
  | some fn => .typeMismatch [.boolean, .number] fn.kind
  | none => .typeMismatch [l.kind] r.kind

theorem Clashes.symm {l r : Value} (h : l.Clashes r) : r.Clashes l := by
  rcases h with hl | hr | ⟨hkind, hl, hr⟩
  · exact .inr (.inl hl)
  · exact .inl hr
  · exact .inr (.inr ⟨hkind.symm, hr, hl⟩)

end Value

namespace Heap

inductive Meets (h : Heap) : Value → Value → Value → Value → Prop
  | here (u v : Value) : Meets h u v u v
  | field {a b : ObjectId} {x : Name} {u v l r : Value} :
      (h.fields a).find? x = some u → (h.fields b).find? x = some v → Meets h u v l r →
      Meets h (.object a) (.object b) l r

variable {h h' : Heap} {u v l r : Value} {e : Fault} {underway : List (ObjectId × ObjectId)}

theorem Meets.symm (hmeets : h.Meets u v l r) : h.Meets v u r l := by
  induction hmeets with
  | here u v => exact .here v u
  | field hu hv _ ih => exact .field hv hu ih

theorem Meets.reorder (ho : h.Reorders h') (hmeets : h'.Meets u v l r) : h.Meets u v l r := by
  induction hmeets with
  | here u v => exact .here u v
  | field hu hv _ ih =>
    rw [Table.find?_eq_of_perm (ho _)] at hu hv
    exact .field hu hv ih

theorem clashes_of_equalUnder (hk : u.kind ≠ .object ∨ v.kind ≠ .object)
    (herror : h.equalUnder 0 [] u v = .error e) : u.Clashes v ∧ e = u.clash v := by
  unfold equalUnder at herror
  cases u <;> cases v <;>
    simp_all [Value.Clashes, Value.clash, Value.isCallable, Value.kind, List.find?]

def MeetsIn (h : Heap) (l r : Value) : Comparison → Prop
  | .values u v => h.Meets u v l r
  | .entries left right => ∃ x u v, (x, u) ∈ left ∧ right.find? x = some v ∧ h.Meets u v l r

theorem Compares.exists_clash {q : Comparison} {answer : Except Fault Bool}
    (hq : h.Compares underway q answer) (herror : answer = .error e) :
    ∃ l r, h.MeetsIn l r q ∧ l.Clashes r ∧ e = l.clash r := by
  induction hq with
  | @settled underway u v hk => exact ⟨u, v, .here u v, clashes_of_equalUnder hk herror⟩
  | underway hab => cases herror
  | sizes hab hsize => cases herror
  | objects hab hsize hentries ih =>
    obtain ⟨l, r, ⟨x, u, v, hu, hv, hmeets⟩, hclash⟩ := ih herror
    have hx := Table.find?_eq_some_iff.mpr (mem_visited_iff.mp hu)
    exact ⟨l, r, .field hx hv hmeets, hclash⟩
  | done => cases herror
  | missing hx => cases herror
  | differ hx huv hne ih =>
    obtain ⟨l, r, hmeets, hclash⟩ := ih herror
    exact ⟨l, r, ⟨_, _, _, List.mem_cons_self, hx, hmeets⟩, hclash⟩
  | next hx huv hrest ih ihrest =>
    obtain ⟨l, r, ⟨y, u, v, hu, hv, hmeets⟩, hclash⟩ := ihrest herror
    exact ⟨l, r, ⟨y, u, v, List.mem_cons_of_mem _ hu, hv, hmeets⟩, hclash⟩

theorem exists_clash_of_equal? (herror : h.equal? u v = .error e) :
    ∃ l r, h.Meets u v l r ∧ l.Clashes r ∧ e = l.clash r :=
  (equal?_compares h u v).exists_clash herror

theorem exists_equal?_eq_ok (hmeets : ∀ l r, h.Meets u v l r → ¬l.Clashes r) :
    ∃ answer, h.equal? u v = .ok answer := by
  cases hanswer : h.equal? u v with
  | ok answer => exact ⟨answer, rfl⟩
  | error e =>
    obtain ⟨l, r, hlr, hclash, -⟩ := exists_clash_of_equal? hanswer
    exact absurd hclash (hmeets l r hlr)

theorem Matches.symm {R : Value → Value → Prop} (hm : h.Matches R u v) :
    h.Matches (fun u v => R v u) v u := by
  cases hm with
  | null => exact .null
  | number hab => exact .number (beq_symm hab)
  | boolean b => exact .boolean b
  | string t => exact .string t
  | object hnames hfields =>
    exact .object (fun x => (hnames x).symm) fun x u v hu hv => hfields x v u hv hu

def Bisimilar (h : Heap) (u v : Value) : Prop := ∃ R, h.Bisimulation R ∧ R u v

theorem Bisimilar.symm (huv : h.Bisimilar u v) : h.Bisimilar v u := by
  obtain ⟨R, hR, huv⟩ := huv
  exact ⟨fun u v => R v u, fun u v hvu => (hR v u hvu).symm, huv⟩

theorem Bisimilar.reorder (ho : h.Reorders h') (huv : h.Bisimilar u v) : h'.Bisimilar u v := by
  obtain ⟨R, hR, huv⟩ := huv
  exact ⟨R, bisimulation_of_reorders ho hR, huv⟩

theorem equal?_eq_of_bisimilar_iff {u' v' : Value} {answer : Bool}
    (hanswer : h.equal? u v = .ok answer) (hmeets : ∀ l r, h'.Meets u' v' l r → ¬l.Clashes r)
    (hiff : h'.Bisimilar u' v' ↔ h.Bisimilar u v) : h'.equal? u' v' = .ok answer := by
  obtain ⟨answer', hanswer'⟩ := exists_equal?_eq_ok hmeets
  have htrue : h'.equal? u' v' = .ok true ↔ h.equal? u v = .ok true :=
    equal?_eq_true_iff.trans (hiff.trans equal?_eq_true_iff.symm)
  rw [hanswer, hanswer', Except.ok.injEq, Except.ok.injEq] at htrue
  rw [hanswer', Bool.eq_iff_iff.mpr htrue]

/--
In whatever order fields are visited: where a comparison fails, it meets a pair that clashes and
says what is wrong with it, and where it meets no such pair, it has an answer that depends neither
on the order of the fields nor on that of the values.
-/
theorem equal?_fails_on_clash (h : Heap) (u v : Value) :
    (∀ h', h.Reorders h' → ∀ e, h'.equal? u v = .error e →
      ∃ l r, h.Meets u v l r ∧ l.Clashes r ∧ e = l.clash r) ∧
    ((∀ l r, h.Meets u v l r → ¬l.Clashes r) →
      ∃ answer, ∀ h', h.Reorders h' →
        h'.equal? u v = .ok answer ∧ h'.equal? v u = .ok answer) := by
  constructor
  · intro h' ho e herror
    obtain ⟨l, r, hmeets, hclash⟩ := exists_clash_of_equal? herror
    exact ⟨l, r, hmeets.reorder ho, hclash⟩
  · intro hmeets
    obtain ⟨answer, hanswer⟩ := exists_equal?_eq_ok hmeets
    refine ⟨answer, fun h' ho => ?_⟩
    have hback : h'.Reorders h := fun o => (ho o).symm
    have hsame : h'.Bisimilar u v ↔ h.Bisimilar u v :=
      ⟨fun huv => huv.reorder hback, fun huv => huv.reorder ho⟩
    have hswapped : h'.Bisimilar v u ↔ h'.Bisimilar u v := ⟨.symm, .symm⟩
    constructor
    · refine equal?_eq_of_bisimilar_iff hanswer ?_ hsame
      intro l r hlr
      exact hmeets l r (hlr.reorder ho)
    · refine equal?_eq_of_bisimilar_iff hanswer ?_ (hswapped.trans hsame)
      intro l r hlr hclash
      exact hmeets r l (hlr.reorder ho).symm hclash.symm

/-- Which of two fields is visited first decides between an answer and a fault. -/
example :
    let objects := #[.ofList [("n", .number 1), ("f", .closure 0)],
      .ofList [("n", .number 2), ("f", .closure 0)]]
    let backwards : FieldOrder := ⟨fun _ => List.reverse, fun _ => List.reverse_perm⟩
    (⟨objects, .insertion⟩ : Heap).equal? (.object 0) (.object 1) = .ok false ∧
      (⟨objects, backwards⟩ : Heap).equal? (.object 0) (.object 1) =
        .error (.typeMismatch [.boolean, .number] .closure) := by
  exact ⟨rfl, rfl⟩

end Heap

end ModuleScript
