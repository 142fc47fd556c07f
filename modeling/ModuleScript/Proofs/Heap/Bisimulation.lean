import ModuleScript.Proofs.Heap.Comparison
import ModuleScript.Proofs.Table

/-!
Equality of values is bisimilarity. Main statement: `equal?_eq_true_iff_bisimilar`, a comparison
always ends, and it answers that two values are equal exactly when some bisimulation relates them,
in whatever order the fields are visited.
-/

namespace ModuleScript

namespace Heap

/--
The values look the same, as far as can be seen without following fields, and their fields are
related by `R`. Functions look like nothing.
-/
inductive Matches (h : Heap) (R : Value → Value → Prop) : Value → Value → Prop
  | null : Matches h R .null .null
  | number {a b : Float} : (a == b) = true → Matches h R (.number a) (.number b)
  | boolean (b : Bool) : Matches h R (.boolean b) (.boolean b)
  | string (t : String) : Matches h R (.string t) (.string t)
  | object {a b : ObjectId} :
      (∀ x, x ∈ (h.fields a).names ↔ x ∈ (h.fields b).names) →
      (∀ x u v, (h.fields a).find? x = some u → (h.fields b).find? x = some v → R u v) →
      Matches h R (.object a) (.object b)

def Bisimulation (h : Heap) (R : Value → Value → Prop) : Prop := ∀ u v, R u v → h.Matches R u v

variable {h : Heap} {R S : Value → Value → Prop} {u v : Value}
  {underway : List (ObjectId × ObjectId)}

theorem Matches.mono (hm : h.Matches R u v) (hRS : ∀ u v, R u v → S u v) : h.Matches S u v := by
  cases hm with
  | null => exact .null
  | number hab => exact .number hab
  | boolean b => exact .boolean b
  | string t => exact .string t
  | object hnames hfields =>
    exact .object hnames fun x u v hu hv => hRS u v (hfields x u v hu hv)

theorem equalUnder_eq_true_iff (hk : u.kind ≠ .object ∨ v.kind ≠ .object) (n : Nat) :
    h.equalUnder n underway u v = .ok true ↔ h.Matches R u v := by
  have hcases : h.equalUnder 0 [] u v = .ok true ↔ h.Matches R u v := by
    unfold equalUnder
    constructor
    · intro heq
      cases u <;> cases v <;> simp_all [Value.kind, Value.isCallable]
      · exact .number ‹_›
      · exact .boolean _
      · exact .string _
      · exact .null
    · intro hm
      cases hm <;> simp_all [Value.kind, Value.isCallable]
  rw [equalUnder_of_kind hk]
  exact hcases

/-- What is compared is related: the values, or each field on the left with its namesake. -/
def Related (R : Value → Value → Prop) : Comparison → Prop
  | .values u v => R u v
  | .entries left right => ∀ x u, (x, u) ∈ left → ∃ v, right.find? x = some v ∧ R u v

theorem related_entries_iff {a b : ObjectId} (hsize : (h.fields a).size = (h.fields b).size) :
    Related R (.entries (h.visited a) (h.fields b)) ↔
      h.Matches R (.object a) (.object b) := by
  constructor
  · intro hrelated
    have hsub : ∀ x ∈ (h.fields a).names, x ∈ (h.fields b).names := by
      intro x hx
      obtain ⟨entry, hentry, rfl⟩ := List.mem_map.mp hx
      obtain ⟨v, hv, -⟩ := hrelated entry.1 entry.2 (mem_visited_iff.mpr hentry)
      exact Table.isSome_find?_iff.mp (hv ▸ rfl)
    refine .object (fun x => Table.mem_names_iff_of_subset hsize hsub) fun x u v hu hv => ?_
    obtain ⟨v', hv', huv⟩ := hrelated x u (mem_visited_iff.mpr (Table.find?_eq_some_iff.mp hu))
    obtain rfl : v = v' := Option.some.inj (hv.symm.trans hv')
    exact huv
  · intro hm x u hvisited
    have hu : (x, u) ∈ (h.fields a).entries := mem_visited_iff.mp hvisited
    cases hm with
    | object hnames hfields =>
      have hx : x ∈ (h.fields b).names := (hnames x).mp (List.mem_map_of_mem hu)
      obtain ⟨v, hv⟩ := Option.isSome_iff_exists.mp (Table.isSome_find?_iff.mpr hx)
      exact ⟨v, hv, hfields x u v (Table.find?_eq_some_iff.mpr hu) hv⟩

def BisimulationUpTo (h : Heap) (underway : List (ObjectId × ObjectId))
    (R : Value → Value → Prop) : Prop :=
  ∀ u v, R u v →
    (∃ pair ∈ underway, u = .object pair.1 ∧ v = .object pair.2) ∨ h.Matches R u v

theorem upTo_pair (huv : (∃ pair ∈ underway, u = .object pair.1 ∧ v = .object pair.2) ∨
      h.Matches (fun _ _ => False) u v) :
    h.BisimulationUpTo underway fun u' v' => u' = u ∧ v' = v := by
  rintro _ _ ⟨rfl, rfl⟩
  exact huv.imp id fun hm => hm.mono fun _ _ hfalse => hfalse.elim

theorem upTo_union (hR : h.BisimulationUpTo underway R) (hS : h.BisimulationUpTo underway S) :
    h.BisimulationUpTo underway fun u v => R u v ∨ S u v := by
  intro u v huv
  rcases huv with huv | huv
  · exact (hR u v huv).imp id fun hm => hm.mono fun _ _ => Or.inl
  · exact (hS u v huv).imp id fun hm => hm.mono fun _ _ => Or.inr

/--
The pair that has been compared last need not be assumed any more: its fields are related, be it
through the assumption itself.
-/
theorem upTo_discharge {a b : ObjectId} (hR : h.BisimulationUpTo ((a, b) :: underway) R)
    (hm : h.Matches R (.object a) (.object b)) :
    h.BisimulationUpTo underway fun u v => R u v ∨ u = .object a ∧ v = .object b := by
  have hmono : ∀ u v, R u v → R u v ∨ u = .object a ∧ v = .object b := fun _ _ => Or.inl
  intro u v huv
  rcases huv with huv | ⟨rfl, rfl⟩
  · rcases hR u v huv with ⟨pair, hpair, rfl, rfl⟩ | hmatch
    · rcases List.mem_cons.mp hpair with rfl | hpair
      · exact .inr (hm.mono hmono)
      · exact .inl ⟨pair, hpair, rfl, rfl⟩
    · exact .inr (hmatch.mono hmono)
  · exact .inr (hm.mono hmono)

/-- Every comparison that ends well leaves behind a bisimulation up to what it assumed. -/
theorem Compares.sound {q : Comparison} {answer : Except Fault Bool}
    (hq : h.Compares underway q answer) (htrue : answer = .ok true) :
    ∃ R, h.BisimulationUpTo underway R ∧ Related R q := by
  induction hq with
  | @settled underway u v hk =>
    have hm : h.Matches (fun _ _ => False) u v := (equalUnder_eq_true_iff hk 0).mp htrue
    exact ⟨_, upTo_pair (.inr hm), rfl, rfl⟩
  | underway hab => exact ⟨_, upTo_pair (.inl ⟨_, hab, rfl, rfl⟩), rfl, rfl⟩
  | sizes hab hsize => cases htrue
  | objects hab hsize hentries ih =>
    obtain ⟨R, hR, hrelated⟩ := ih htrue
    exact ⟨_, upTo_discharge hR ((related_entries_iff hsize).mp hrelated), .inr ⟨rfl, rfl⟩⟩
  | done => exact ⟨fun _ _ => False, fun _ _ hfalse => hfalse.elim, fun _ _ hmem => nomatch hmem⟩
  | missing hx => cases htrue
  | differ hx huv hne ih => exact absurd htrue hne
  | @next underway right x u v rest answer hx huv hrest ih ihrest =>
    -- one relation for the first field, one for the others
    obtain ⟨R, hR, huvR⟩ := ih rfl
    obtain ⟨S, hS, hrestS⟩ := ihrest htrue
    refine ⟨_, upTo_union hR hS, ?_⟩
    intro y w hw
    rcases List.mem_cons.mp hw with hfirst | hw
    · obtain ⟨rfl, rfl⟩ := Prod.mk.inj hfirst
      exact ⟨v, hx, .inl huvR⟩
    · obtain ⟨w', hw', hS'⟩ := hrestS y w hw
      exact ⟨w', hw', .inr hS'⟩

theorem Compares.complete {q : Comparison} {answer : Except Fault Bool} (hR : h.Bisimulation R)
    (hq : h.Compares underway q answer) (hrelated : Related R q) : answer = .ok true := by
  induction hq with
  | @settled underway u v hk => exact (equalUnder_eq_true_iff hk 0).mpr (hR u v hrelated)
  | underway hab => rfl
  | @sizes underway a b hab hsize =>
    cases hR _ _ hrelated with
    | object hnames hfields => exact absurd (Table.size_eq_of_mem_names_iff hnames) hsize
  | objects hab hsize hentries ih => exact ih ((related_entries_iff hsize).mpr (hR _ _ hrelated))
  | done => rfl
  | missing hx =>
    obtain ⟨v, hv, -⟩ := hrelated _ _ List.mem_cons_self
    cases hx.symm.trans hv
  | differ hx huv hne ih =>
    obtain ⟨v', hv', huvR⟩ := hrelated _ _ List.mem_cons_self
    obtain rfl := Option.some.inj (hx.symm.trans hv')
    exact ih huvR
  | next hx huv hrest ih ihrest =>
    exact ihrest fun y w hw => hrelated y w (List.mem_cons_of_mem _ hw)

theorem equal?_eq_true_iff : h.equal? u v = .ok true ↔ ∃ R, h.Bisimulation R ∧ R u v := by
  constructor
  · intro heq
    obtain ⟨R, hR, huv⟩ := (equal?_compares h u v).sound heq
    refine ⟨R, fun u v huv => ?_, huv⟩
    rcases hR u v huv with ⟨pair, hpair, -⟩ | hm
    · cases hpair
    · exact hm
  · rintro ⟨R, hR, huv⟩
    exact (equal?_compares h u v).complete hR huv

/-- The same objects with the same fields, listed and visited in any order. -/
def Reorders (h h' : Heap) : Prop := ∀ o, (h'.fields o).entries.Perm (h.fields o).entries

theorem bisimulation_of_reorders {h' : Heap} (ho : h.Reorders h') (hR : h.Bisimulation R) :
    h'.Bisimulation R := by
  intro u v huv
  cases hR u v huv with
  | null => exact .null
  | number hab => exact .number hab
  | boolean b => exact .boolean b
  | string t => exact .string t
  | @object a b hnames hfields =>
    have hnames' (o : ObjectId) (x : Name) : x ∈ (h'.fields o).names ↔ x ∈ (h.fields o).names :=
      ((ho o).map Prod.fst).mem_iff
    refine .object (fun x => (hnames' a x).trans ((hnames x).trans (hnames' b x).symm)) ?_
    intro x u v hu hv
    rw [Table.find?_eq_of_perm (ho _)] at hu hv
    exact hfields x u v hu hv

/--
The comparison of two values over any heap, with whatever sharing and cycles, comes to an end, and
`equal?` is what it ends with. The values are equal exactly when some bisimulation relates them.
Neither changes when the fields of the objects are visited in another order.
-/
theorem equal?_eq_true_iff_bisimilar (h : Heap) (u v : Value) :
    (∀ answer, h.Compares [] (.values u v) answer ↔ h.equal? u v = answer) ∧
      (h.equal? u v = .ok true ↔ ∃ R, h.Bisimulation R ∧ R u v) ∧
      ∀ h', h.Reorders h' →
        (∀ answer, h'.Compares [] (.values u v) answer ↔ h'.equal? u v = answer) ∧
        (h'.equal? u v = .ok true ↔ ∃ R, h.Bisimulation R ∧ R u v) := by
  refine ⟨fun answer => compares_iff, equal?_eq_true_iff, fun h' ho => ?_⟩
  refine ⟨fun answer => compares_iff, equal?_eq_true_iff.trans ?_⟩
  constructor
  · rintro ⟨R, hR, huv⟩
    exact ⟨R, bisimulation_of_reorders (fun o => (ho o).symm) hR, huv⟩
  · rintro ⟨R, hR, huv⟩
    exact ⟨R, bisimulation_of_reorders ho hR, huv⟩

/-- Two objects, each of which refers to itself, cannot be told apart. -/
example :
    let h : Heap := ⟨#[.ofList [("self", .object 0)], .ofList [("self", .object 1)]], .insertion⟩
    h.equal? (.object 0) (.object 1) = .ok true := by
  rfl

end Heap

end ModuleScript
