import ModuleScript.Proofs.Heap.Graph
import ModuleScript.Proofs.Heap.Rendering
import ModuleScript.Proofs.Number.Equality

/-!
The two equalities agree. Main statement: `equalities_agree`, where neither a cycle nor not-a-number
can be reached, every answer of the language is that of the host, and where no function can be
reached either, what the host takes for the same is equal.
-/

namespace ModuleScript

namespace Heap

variable {h : Heap} {u v : Value} {a b : ObjectId} {n : Nat} {path : List ObjectId}
  {underway : List (ObjectId × ObjectId)} {R : Value → Value → Prop}

section Fields

variable {ε : Type} {eq : Value → Value → Except ε Bool} {left : List (Name × Value)}
  {right : Table Value}

theorem related_of_entriesEqual (htrue : entriesEqual eq right left = .ok true) :
    Related (fun u v => eq u v = .ok true) (.entries left right) := by
  induction left with
  | nil =>
    intro x u hu
    cases hu
  | cons entry rest ih =>
    obtain ⟨x, u⟩ := entry
    rw [entriesEqual] at htrue
    split at htrue
    · cases htrue
    · rename_i v hx
      split at htrue
      · rename_i huv
        intro y w hw
        rcases List.mem_cons.mp hw with hfirst | hw
        · obtain ⟨rfl, rfl⟩ := Prod.mk.inj hfirst
          exact ⟨v, hx, huv⟩
        · exact ih htrue y w hw
      · rename_i hne
        exact absurd htrue hne

theorem entriesEqual_ne_false
    (hrelated : Related (fun u v => eq u v ≠ .ok false) (.entries left right)) :
    entriesEqual eq right left ≠ .ok false := by
  induction left with
  | nil => simp [entriesEqual]
  | cons entry rest ih =>
    obtain ⟨x, u⟩ := entry
    obtain ⟨v, hx, huv⟩ := hrelated x u List.mem_cons_self
    have hrest := ih fun y w hw => hrelated y w (List.mem_cons_of_mem _ hw)
    simp only [entriesEqual, hx]
    split
    · exact hrest
    · exact huv

theorem exists_entriesEqual_eq_ok
    (hends : ∀ x u v, (x, u) ∈ left → ∃ answer, eq u v = .ok answer) :
    ∃ answer, entriesEqual eq right left = .ok answer := by
  induction left with
  | nil => exact ⟨true, rfl⟩
  | cons entry rest ih =>
    obtain ⟨x, u⟩ := entry
    have hrest := ih fun y w v hw => hends y w v (List.mem_cons_of_mem _ hw)
    rw [entriesEqual]
    split
    · exact ⟨false, rfl⟩
    · rename_i v _
      split
      · exact hrest
      · exact hends x u v List.mem_cons_self

theorem matches_of_fieldsEqual (hfields : fieldsEqual eq (h.visited a) (h.fields b) = .ok true) :
    h.Matches (fun u v => eq u v = .ok true) (.object a) (.object b) := by
  rw [fieldsEqual_visited] at hfields
  split at hfields
  · rename_i hsize
    exact (related_entries_iff hsize).mp (related_of_entriesEqual hfields)
  · cases hfields

theorem fieldsEqual_ne_false
    (hm : h.Matches (fun u v => eq u v ≠ .ok false) (.object a) (.object b)) :
    fieldsEqual eq (h.visited a) (h.fields b) ≠ .ok false := by
  have hsize : (h.fields a).size = (h.fields b).size := by
    cases hm with
    | object hnames _ => exact Table.size_eq_of_mem_names_iff hnames
  rw [fieldsEqual_visited, if_pos hsize]
  exact entriesEqual_ne_false ((related_entries_iff hsize).mpr hm)

end Fields

theorem sameUpTo_self (n : Nat) (a : ObjectId) :
    h.sameUpTo n (.object a) (.object a) = .ok true := by
  cases n <;> simp [sameUpTo]

theorem sameUpTo_objects (n : Nat) (hab : a ≠ b) :
    h.sameUpTo (n + 1) (.object a) (.object b) =
      fieldsEqual (h.sameUpTo n) (h.visited a) (h.fields b) := by
  rw [sameUpTo, if_neg hab]

theorem exists_objects (hk : ¬(u.kind ≠ .object ∨ v.kind ≠ .object)) :
    ∃ a b, u = .object a ∧ v = .object b := by
  rw [not_or, not_not, not_not] at hk
  cases u <;> cases hk.1
  cases v <;> cases hk.2
  exact ⟨_, _, rfl, rfl⟩

theorem sameUpTo_of_kind (hk : u.kind ≠ .object ∨ v.kind ≠ .object) (n : Nat) :
    h.sameUpTo n u v = h.sameUpTo 0 u v := by
  cases n with
  | zero => rfl
  | succ n =>
    cases u with
    | object a =>
      cases v with
      | object b => simp [Value.kind] at hk
      | _ => rfl
    | _ => cases v <;> rfl

theorem exists_sameUpTo_of_kind (hk : u.kind ≠ .object ∨ v.kind ≠ .object) (n : Nat) :
    ∃ answer, h.sameUpTo n u v = .ok answer := by
  rw [sameUpTo_of_kind hk]
  cases u with
  | object a =>
    cases v with
    | object b => simp [Value.kind] at hk
    | _ => exact ⟨_, rfl⟩
  | _ => cases v <;> exact ⟨_, rfl⟩

theorem sameUpTo_eq_true_iff (hk : u.kind ≠ .object ∨ v.kind ≠ .object)
    (hu : u.isCallable = false) (n : Nat) : h.sameUpTo n u v = .ok true ↔ h.Matches R u v := by
  rw [sameUpTo_of_kind hk]
  constructor
  · intro hsame
    cases u with
    | number x =>
      cases v with
      | number y => exact .number (Except.ok.inj hsame)
      | _ => cases hsame
    | boolean b =>
      cases v with
      | boolean c => exact (LawfulBEq.eq_of_beq (Except.ok.inj hsame)) ▸ .boolean b
      | _ => cases hsame
    | string s =>
      cases v with
      | string t => exact (LawfulBEq.eq_of_beq (Except.ok.inj hsame)) ▸ .string s
      | _ => cases hsame
    | null =>
      cases v with
      | null => exact .null
      | _ => cases hsame
    | object a =>
      cases v with
      | object b => simp [Value.kind] at hk
      | _ => cases hsame
    | _ => cases hu
  · intro hm
    cases hm with
    | null => rfl
    | number hab => exact congrArg Except.ok hab
    | boolean b => exact congrArg Except.ok (beq_self_eq_true b)
    | string t => exact congrArg Except.ok (beq_self_eq_true t)
    | object hnames hfields => simp [Value.kind] at hk

theorem same?_eq_some_iff {answer : Bool} :
    h.same? u v = some answer ↔ h.sameUpTo (h.size * h.size + 1) u v = .ok answer := by
  rw [same?]
  cases h.sameUpTo (h.size * h.size + 1) u v <;> simp [Except.toOption]

/-- Without cycles, room for as many objects as are not around the first value is room enough. -/
theorem exists_sameUpTo_eq_ok (n : Nat) (hu : h.Acyclic u) (hnodup : path.Nodup)
    (hrange : ∀ o ∈ path, o < h.size) (hpath : h.Around path u) (hn : h.size < n + path.length)
    (v : Value) : ∃ answer, h.sameUpTo n u v = .ok answer := by
  induction n generalizing path u v with
  | zero =>
    have hle := length_path_le hnodup hrange
    omega
  | succ n ih =>
    by_cases hk : u.kind ≠ .object ∨ v.kind ≠ .object
    · exact exists_sameUpTo_of_kind hk (n + 1)
    · obtain ⟨a, b, rfl, rfl⟩ := exists_objects hk
      by_cases hab : a = b
      · exact ⟨true, hab ▸ sameUpTo_self (n + 1) a⟩
      · rw [sameUpTo_objects n hab, fieldsEqual]
        split
        · apply exists_entriesEqual_eq_ok
          intro x w v hw
          have hfield : h.HasField (.object a) w :=
            .intro (Table.find?_eq_some_iff.mpr (mem_visited_iff.mp hw))
          refine ih (hu.field hfield) ?_ ?_ (hpath.cons hfield) ?_ v
          · exact List.nodup_cons.mpr ⟨hpath.not_mem hu, hnodup⟩
          · exact List.forall_mem_cons.mpr ⟨hfield.lt_size, hrange⟩
          · rw [List.length_cons]
            omega
        · exact ⟨false, rfl⟩

theorem exists_same?_eq_some (hu : h.Acyclic u) (v : Value) :
    ∃ answer, h.same? u v = some answer := by
  have hroom : h.size < h.size * h.size + 1 + ([] : List ObjectId).length :=
    Nat.lt_succ_of_le (Nat.le_mul_self h.size)
  simp only [same?_eq_some_iff]
  exact exists_sameUpTo_eq_ok _ hu List.nodup_nil (List.forall_mem_nil _) (around_nil u) hroom v

theorem Matches.not_isCallable (hm : h.Matches R u v) : u.isCallable = false := by
  cases hm <;> rfl

/-- What a bisimulation relates is never told apart by the host. -/
theorem sameUpTo_ne_false (hR : h.Bisimulation R) (n : Nat) (huv : R u v) :
    h.sameUpTo n u v ≠ .ok false := by
  induction n using Nat.strongRecOn generalizing u v with
  | _ n ih =>
    have hm := hR u v huv
    by_cases hk : u.kind ≠ .object ∨ v.kind ≠ .object
    · rw [(sameUpTo_eq_true_iff hk hm.not_isCallable n).mpr hm]
      simp
    · obtain ⟨a, b, rfl, rfl⟩ := exists_objects hk
      by_cases hab : a = b
      · rw [hab, sameUpTo_self]
        simp
      · cases n with
        | zero => simp [sameUpTo, hab]
        | succ n =>
          rw [sameUpTo_objects n hab]
          exact fieldsEqual_ne_false (hm.mono fun u v huv => ih n (Nat.lt_succ_self n) huv)

def Same (h : Heap) (u v : Value) : Prop := ∃ n, h.sameUpTo n u v = .ok true

theorem same_refl (hnan : ∀ x, u = .number x → x.isNaN = false) : h.Same u u := by
  refine ⟨0, ?_⟩
  cases u with
  | number x => simp [sameUpTo, beq_self_of_not_nan (hnan x rfl)]
  | object a => exact sameUpTo_self 0 a
  | _ => simp [sameUpTo]

theorem matches_self (hnan : ∀ x, h.Reaches (.object a) (.number x) → x.isNaN = false) :
    h.Matches h.Same (.object a) (.object a) := by
  refine .object (fun x => Iff.rfl) fun x u v hu hv => ?_
  obtain rfl := Option.some.inj (hu.symm.trans hv)
  apply same_refl
  rintro y rfl
  exact hnan y (HasField.reaches (.intro hu) (reaches_refl _))

theorem Same.callable_or_matches (huv : h.Same u v)
    (hnan : ∀ x, h.Reaches u (.number x) → x.isNaN = false) :
    u.isCallable = true ∨ h.Matches h.Same u v := by
  obtain ⟨n, hn⟩ := huv
  cases hu : u.isCallable with
  | true => exact .inl rfl
  | false =>
    right
    by_cases hk : u.kind ≠ .object ∨ v.kind ≠ .object
    · exact (sameUpTo_eq_true_iff hk hu n).mp hn
    · obtain ⟨a, b, rfl, rfl⟩ := exists_objects hk
      by_cases hab : a = b
      · exact hab ▸ matches_self hnan
      · cases n with
        | zero => simp [sameUpTo, hab] at hn
        | succ n =>
          rw [sameUpTo_objects n hab] at hn
          exact (matches_of_fieldsEqual hn).mono fun u v huv => ⟨n, huv⟩

theorem Matches.restrict {P : Value → Prop} (hm : h.Matches R u v)
    (hP : ∀ w, h.HasField u w → P w) : h.Matches (fun u v => R u v ∧ P u) u v := by
  cases hm with
  | null => exact .null
  | number hab => exact .number hab
  | boolean b => exact .boolean b
  | string t => exact .string t
  | object hnames hfields =>
    exact .object hnames fun x u v hu hv => ⟨hfields x u v hu hv, hP u (.intro hu)⟩

/--
A comparison of values that are related by a bisimulation, functions apart, can fail, but it does
not answer that they differ.
-/
theorem Compares.ne_false {q : Comparison} {answer : Except Fault Bool}
    (hR : ∀ u v, R u v → u.isCallable = true ∨ h.Matches R u v)
    (hq : h.Compares underway q answer) (hrelated : Related R q) : answer ≠ .ok false := by
  have hobjects {a b : ObjectId} (hab : R (.object a) (.object b)) :
      h.Matches R (.object a) (.object b) :=
    (hR _ _ hab).resolve_left (by simp [Value.isCallable])
  induction hq with
  | @settled underway u v hk =>
    rcases hR u v hrelated with hcallable | hm
    · unfold equalUnder
      simp [hcallable]
    · rw [(equalUnder_eq_true_iff hk 0).mpr hm]
      simp
  | underway hab => simp
  | sizes hab hsize =>
    cases hobjects hrelated with
    | object hnames hfields => exact absurd (Table.size_eq_of_mem_names_iff hnames) hsize
  | objects hab hsize hentries ih => exact ih ((related_entries_iff hsize).mpr (hobjects hrelated))
  | done => simp
  | missing hx =>
    obtain ⟨v, hv, -⟩ := hrelated _ _ List.mem_cons_self
    cases hx.symm.trans hv
  | differ hx huv hne ih =>
    obtain ⟨v', hv', huvR⟩ := hrelated _ _ List.mem_cons_self
    obtain rfl := Option.some.inj (hx.symm.trans hv')
    exact ih huvR
  | next hx huv hrest ih ihrest =>
    exact ihrest fun y w hw => hrelated y w (List.mem_cons_of_mem _ hw)

theorem Same.equal?_ne_false (huv : h.Same u v)
    (hnan : ∀ x, h.Reaches u (.number x) → x.isNaN = false) : h.equal? u v ≠ .ok false := by
  refine (equal?_compares h u v).ne_false (R := fun u v =>
    h.Same u v ∧ ∀ x, h.Reaches u (.number x) → x.isNaN = false) ?_ ⟨huv, hnan⟩
  rintro u v ⟨huv, hnan⟩
  refine (huv.callable_or_matches hnan).imp id fun hm => hm.restrict ?_
  intro w hw x hx
  exact hnan x (hw.reaches hx)

theorem Same.equal?_eq_true (huv : h.Same u v)
    (hnan : ∀ x, h.Reaches u (.number x) → x.isNaN = false)
    (hdata : ∀ w, h.Reaches u w → w.isCallable = false) : h.equal? u v = .ok true := by
  refine equal?_eq_true_iff.mpr ⟨fun u v => h.Same u v ∧
    (∀ x, h.Reaches u (.number x) → x.isNaN = false) ∧
      ∀ w, h.Reaches u w → w.isCallable = false, ?_, huv, hnan, hdata⟩
  rintro u v ⟨huv, hnan, hdata⟩
  have hnot : ¬u.isCallable = true := by simp [hdata u (reaches_refl u)]
  refine ((huv.callable_or_matches hnan).resolve_left hnot).restrict ?_
  intro w hw
  exact ⟨fun x hx => hnan x (hw.reaches hx), fun w' hw' => hdata w' (hw.reaches hw')⟩

/--
It is enough that neither a cycle nor not-a-number can be reached from the first value. Then the
host has the answer that the language has, if the language has one at all. If, moreover, no function
can be reached from it, values that the host takes for the same are equal.
-/
theorem equalities_agree (h : Heap) (u v : Value) (hacyclic : h.Acyclic u)
    (hnan : ∀ x, h.Reaches u (.number x) → x.isNaN = false) :
    (∀ answer, h.equal? u v = .ok answer → h.same? u v = some answer) ∧
      ((∀ w, h.Reaches u w → w.isCallable = false) → h.same? u v = some true →
        h.equal? u v = .ok true) := by
  constructor
  · intro answer hanswer
    obtain ⟨same, hsame⟩ := exists_same?_eq_some hacyclic v
    have hdepth := same?_eq_some_iff.mp hsame
    rw [hsame, Option.some.injEq]
    cases answer with
    | true =>
      obtain ⟨R, hR, huv⟩ := equal?_eq_true_iff.mp hanswer
      have hne : same ≠ false := by
        rintro rfl
        exact sameUpTo_ne_false hR _ huv hdepth
      exact Bool.eq_true_of_not_eq_false hne
    | false =>
      have hne : same ≠ true := by
        rintro rfl
        exact Same.equal?_ne_false ⟨_, hdepth⟩ hnan hanswer
      exact Bool.eq_false_of_not_eq_true hne
  · intro hdata hsame
    exact Same.equal?_eq_true ⟨_, same?_eq_some_iff.mp hsame⟩ hnan hdata

theorem equalities_agree_sharing :
    sharing.Acyclic (.object 0) ∧
      (∀ x, sharing.Reaches (.object 0) (.number x) → x.isNaN = false) ∧
      sharing.equal? (.object 0) (.object 1) = .ok true ∧
      sharing.same? (.object 0) (.object 1) = some true := by
  have hacyclic : sharing.Acyclic (.object 0) := acyclic_sharing _
  have hnan (x : Float) (hx : sharing.Reaches (.object 0) (.number x)) : x.isNaN = false := by
    rcases number_or_object_of_sharing rfl hx with hx | hx
    · obtain rfl := Value.number.inj hx
      decide
    · cases hx
  have hdata (w : Value) (hw : sharing.Reaches (.object 0) w) : w.isCallable = false := by
    rcases number_or_object_of_sharing rfl hw with rfl | hw
    · rfl
    · cases w with
      | object o => rfl
      | _ => cases hw
  have hagree := equalities_agree sharing (.object 0) (.object 1) hacyclic hnan
  have hsame : sharing.same? (.object 0) (.object 1) = some true := hagree.1 true rfl
  exact ⟨hacyclic, hnan, hagree.2 hdata hsame, hsame⟩

/-- Not-a-number differs from itself, but the object that holds it is the same as itself. -/
example :
    let h : Heap := ⟨#[.ofList [("n", .number (0.0 / 0.0))]], .insertion⟩
    h.equal? (.object 0) (.object 0) = .ok false ∧ h.same? (.object 0) (.object 0) = some true := by
  exact ⟨rfl, rfl⟩

end Heap

end ModuleScript
