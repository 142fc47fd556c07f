import Mathlib.Data.Finset.Prod
import Mathlib.Data.Finset.Card
import ModuleScript.Heap.Equality

/-!
How the comparison of two values goes on, with no bound on its depth. Main statement:
`equal?_compares`, the comparison always ends, and `equal?` gives its answer: pairs under comparison
are pairs of objects of the heap and all different, so there are at most as many of them.
-/

namespace ModuleScript

inductive Comparison where
  | values (u v : Value)
  | entries (left : List (Name × Value)) (right : Table Value)

namespace Heap

/-- The comparison ends with the answer, while the pairs `underway` are under comparison. -/
inductive Compares (h : Heap) :
    List (ObjectId × ObjectId) → Comparison → Except Fault Bool → Prop
  | settled {underway : List (ObjectId × ObjectId)} {u v : Value} :
      u.kind ≠ .object ∨ v.kind ≠ .object →
      Compares h underway (.values u v) (h.equalUnder 0 [] u v)
  | underway {underway : List (ObjectId × ObjectId)} {a b : ObjectId} :
      (a, b) ∈ underway → Compares h underway (.values (.object a) (.object b)) (.ok true)
  | sizes {underway : List (ObjectId × ObjectId)} {a b : ObjectId} :
      (a, b) ∉ underway → (h.fields a).size ≠ (h.fields b).size →
      Compares h underway (.values (.object a) (.object b)) (.ok false)
  | objects {underway : List (ObjectId × ObjectId)} {a b : ObjectId}
      {answer : Except Fault Bool} :
      (a, b) ∉ underway → (h.fields a).size = (h.fields b).size →
      Compares h ((a, b) :: underway) (.entries (h.visited a) (h.fields b)) answer →
      Compares h underway (.values (.object a) (.object b)) answer
  | done {underway : List (ObjectId × ObjectId)} {right : Table Value} :
      Compares h underway (.entries [] right) (.ok true)
  | missing {underway : List (ObjectId × ObjectId)} {right : Table Value} {x : Name} {u : Value}
      {rest : List (Name × Value)} :
      right.find? x = none → Compares h underway (.entries ((x, u) :: rest) right) (.ok false)
  | differ {underway : List (ObjectId × ObjectId)} {right : Table Value} {x : Name} {u v : Value}
      {rest : List (Name × Value)} {answer : Except Fault Bool} :
      right.find? x = some v → Compares h underway (.values u v) answer → answer ≠ .ok true →
      Compares h underway (.entries ((x, u) :: rest) right) answer
  | next {underway : List (ObjectId × ObjectId)} {right : Table Value} {x : Name} {u v : Value}
      {rest : List (Name × Value)} {answer : Except Fault Bool} :
      right.find? x = some v → Compares h underway (.values u v) (.ok true) →
      Compares h underway (.entries rest right) answer →
      Compares h underway (.entries ((x, u) :: rest) right) answer

variable {h : Heap} {underway : List (ObjectId × ObjectId)} {u v : Value}

theorem equalUnder_of_kind (hk : u.kind ≠ .object ∨ v.kind ≠ .object) (n : Nat) :
    h.equalUnder n underway u v = h.equalUnder 0 [] u v := by
  unfold equalUnder
  cases u <;> cases v <;> simp_all [Value.kind]

theorem fieldsEqual_visited {ε : Type} (eq : Value → Value → Except ε Bool) (h : Heap)
    (a b : ObjectId) :
    fieldsEqual eq (h.visited a) (h.fields b) =
      if (h.fields a).size = (h.fields b).size then entriesEqual eq (h.fields b) (h.visited a)
      else .ok false := by
  rw [fieldsEqual, length_visited]

theorem equalUnder_objects (n : Nat) {a b : ObjectId} (hab : (a, b) ∉ underway) :
    h.equalUnder (n + 1) underway (.object a) (.object b) =
      fieldsEqual (h.equalUnder n ((a, b) :: underway)) (h.visited a) (h.fields b) := by
  rw [equalUnder]
  simp [Value.isCallable, hab]

section Entries

variable {eq : Value → Value → Except Fault Bool} {left right : Table Value} {x : Name}
  {rest : List (Name × Value)}

theorem entriesEqual_missing (hx : right.find? x = none) :
    entriesEqual eq right ((x, u) :: rest) = .ok false := by
  simp [entriesEqual, hx]

theorem entriesEqual_next (hx : right.find? x = some v) (huv : eq u v = .ok true) :
    entriesEqual eq right ((x, u) :: rest) = entriesEqual eq right rest := by
  simp [entriesEqual, hx, huv]

theorem entriesEqual_differ (hx : right.find? x = some v) (huv : eq u v ≠ .ok true) :
    entriesEqual eq right ((x, u) :: rest) = eq u v := by
  unfold entriesEqual
  simp only [hx]

end Entries

theorem entriesEqual_compares {eq : Value → Value → Except Fault Bool} {right : Table Value}
    (heq : ∀ u v, h.Compares underway (.values u v) (eq u v)) (left : List (Name × Value)) :
    h.Compares underway (.entries left right) (entriesEqual eq right left) := by
  induction left with
  | nil => exact .done
  | cons entry rest ih =>
    obtain ⟨x, u⟩ := entry
    cases hx : right.find? x with
    | none =>
      rw [entriesEqual_missing hx]
      exact .missing hx
    | some v =>
      have huv := heq u v
      by_cases htrue : eq u v = .ok true
      · rw [entriesEqual_next hx htrue]
        rw [htrue] at huv
        exact .next hx huv ih
      · rw [entriesEqual_differ hx htrue]
        exact .differ hx huv htrue

theorem length_underway_le (hnodup : underway.Nodup)
    (hrange : ∀ pair ∈ underway, pair.1 < h.size ∧ pair.2 < h.size) :
    underway.length ≤ h.size * h.size := by
  have hsub : underway.toFinset ⊆ Finset.range h.size ×ˢ Finset.range h.size := by
    intro pair hpair
    obtain ⟨h1, h2⟩ := hrange pair (List.mem_toFinset.mp hpair)
    exact Finset.mem_product.mpr ⟨Finset.mem_range.mpr h1, Finset.mem_range.mpr h2⟩
  calc underway.length = underway.toFinset.card := (List.toFinset_card_of_nodup hnodup).symm
    _ ≤ (Finset.range h.size ×ˢ Finset.range h.size).card := Finset.card_le_card hsub
    _ = h.size * h.size := by rw [Finset.card_product, Finset.card_range]

theorem fields_of_size_le {o : ObjectId} (ho : h.size ≤ o) : h.fields o = ∅ := by
  have hnone : h.objects[o]? = none := Array.getElem?_eq_none ho
  rw [fields, hnone, Option.getD_none]

theorem fieldsEqual_compares_of_size_le {a b : ObjectId} {eq : Value → Value → Except Fault Bool}
    (hab : (a, b) ∉ underway) (hrange : h.size ≤ a ∨ h.size ≤ b) :
    h.Compares underway (.values (.object a) (.object b))
      (fieldsEqual eq (h.visited a) (h.fields b)) := by
  rw [fieldsEqual_visited]
  by_cases hsize : (h.fields a).size = (h.fields b).size
  · have hzero : (h.fields a).size = 0 := by
      rcases hrange with ha | hb
      · rw [fields_of_size_le ha]
        rfl
      · rw [hsize, fields_of_size_le hb]
        rfl
    have hempty : h.visited a = [] :=
      List.eq_nil_of_length_eq_zero ((h.length_visited a).trans hzero)
    have hdone : h.Compares ((a, b) :: underway) (.entries (h.visited a) (h.fields b))
        (.ok true) := by
      rw [hempty]
      exact .done
    rw [if_pos hsize, hempty]
    exact .objects hab hsize hdone
  · rw [if_neg hsize]
    exact .sizes hab hsize

/-- Room for as many pairs as are not under comparison yet is room enough. -/
theorem equalUnder_compares (n : Nat) (hnodup : underway.Nodup)
    (hrange : ∀ pair ∈ underway, pair.1 < h.size ∧ pair.2 < h.size)
    (hn : h.size * h.size < n + underway.length) (u v : Value) :
    h.Compares underway (.values u v) (h.equalUnder n underway u v) := by
  induction n generalizing underway u v with
  | zero =>
    have hle := length_underway_le hnodup hrange
    omega
  | succ n ih =>
    by_cases hk : u.kind ≠ .object ∨ v.kind ≠ .object
    · rw [equalUnder_of_kind hk]
      exact .settled hk
    · obtain ⟨a, rfl⟩ : ∃ a, u = .object a := by cases u <;> simp_all [Value.kind]
      obtain ⟨b, rfl⟩ : ∃ b, v = .object b := by cases v <;> simp_all [Value.kind]
      by_cases hab : (a, b) ∈ underway
      · have htrue : h.equalUnder (n + 1) underway (.object a) (.object b) = .ok true := by
          rw [equalUnder]
          simp [Value.isCallable, hab]
        rw [htrue]
        exact .underway hab
      · rw [equalUnder_objects n hab]
        by_cases hin : a < h.size ∧ b < h.size
        · -- one more pair is under comparison, and one fewer is left
          have hnodup' : ((a, b) :: underway).Nodup := List.nodup_cons.mpr ⟨hab, hnodup⟩
          have hrange' : ∀ pair ∈ (a, b) :: underway, pair.1 < h.size ∧ pair.2 < h.size :=
            List.forall_mem_cons.mpr ⟨hin, hrange⟩
          have hroom : h.size * h.size < n + ((a, b) :: underway).length := by
            rw [List.length_cons]
            omega
          have hcompares := ih hnodup' hrange' hroom
          rw [fieldsEqual_visited]
          by_cases hsize : (h.fields a).size = (h.fields b).size
          · rw [if_pos hsize]
            exact .objects hab hsize (entriesEqual_compares hcompares _)
          · rw [if_neg hsize]
            exact .sizes hab hsize
        · have hout : h.size ≤ a ∨ h.size ≤ b :=
            (Classical.not_and_iff_not_or_not.mp hin).imp Nat.le_of_not_lt Nat.le_of_not_lt
          exact fieldsEqual_compares_of_size_le hab hout

theorem equal?_compares (h : Heap) (u v : Value) : h.Compares [] (.values u v) (h.equal? u v) :=
  equalUnder_compares _ List.nodup_nil (List.forall_mem_nil _) (by simp) u v

theorem Compares.unique {q : Comparison} {answer answer' : Except Fault Bool}
    (hq : h.Compares underway q answer) (hq' : h.Compares underway q answer') :
    answer = answer' := by
  induction hq generalizing answer' with
  | settled hk =>
    cases hq' with
    | settled hk' => rfl
    | underway hab => simp [Value.kind] at hk
    | sizes hab hsize => simp [Value.kind] at hk
    | objects hab hsize hentries => simp [Value.kind] at hk
  | underway hab =>
    cases hq' with
    | settled hk => simp [Value.kind] at hk
    | underway hab' => rfl
    | sizes hab' hsize => contradiction
    | objects hab' hsize hentries => contradiction
  | sizes hab hsize =>
    cases hq' with
    | settled hk => simp [Value.kind] at hk
    | underway hab' => contradiction
    | sizes hab' hsize' => rfl
    | objects hab' hsize' hentries => contradiction
  | objects hab hsize hentries ih =>
    cases hq' with
    | settled hk => simp [Value.kind] at hk
    | underway hab' => contradiction
    | sizes hab' hsize' => contradiction
    | objects hab' hsize' hentries' => exact ih hentries'
  | done =>
    cases hq'
    rfl
  | missing hx =>
    cases hq' with
    | missing hx' => rfl
    | differ hx' huv hne => cases hx.symm.trans hx'
    | next hx' huv hrest => cases hx.symm.trans hx'
  | differ hx huv hne ih =>
    cases hq' with
    | missing hx' => cases hx.symm.trans hx'
    | differ hx' huv' hne' =>
      obtain rfl := Option.some.inj (hx.symm.trans hx')
      exact ih huv'
    | next hx' huv' hrest =>
      obtain rfl := Option.some.inj (hx.symm.trans hx')
      exact absurd (ih huv') hne
  | next hx huv hrest ih ihrest =>
    cases hq' with
    | missing hx' => cases hx.symm.trans hx'
    | differ hx' huv' hne' =>
      obtain rfl := Option.some.inj (hx.symm.trans hx')
      exact absurd (ih huv').symm hne'
    | next hx' huv' hrest' => exact ihrest hrest'

theorem compares_iff {answer : Except Fault Bool} :
    h.Compares [] (.values u v) answer ↔ h.equal? u v = answer := by
  constructor
  · intro hanswer
    exact (equal?_compares h u v).unique hanswer
  · intro hanswer
    exact hanswer ▸ equal?_compares h u v

end Heap

end ModuleScript
