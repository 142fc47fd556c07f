import ModuleScript.Proofs.Sharing.Slots

/-!
Searching for names from the inside out. In scopes whose frames stand inside older ones a search
ends at the nearest frame that holds the name (`lookup?_eq_some_iff`), and filling a slot matters to
the frames from which no nearer frame with the name is found, and to no others.
-/

namespace ModuleScript

namespace Scopes

section Links

variable {α : Type} {s t : Scopes α} {f g : FrameId} {x y : Name} {c : CellId} {n : Nat}

def parent? (s : Scopes α) (f : FrameId) : Option FrameId := (s.frame f).enclosing.head?

def outward? (s : Scopes α) : Nat → FrameId → Option FrameId
  | 0, f => some f
  | n + 1, f => (s.parent? f).bind (s.outward? n)

/-- The search for `x` from a frame outwards, and what it ends with. -/
inductive Searches (s : Scopes α) (x : Name) : FrameId → Option CellId → Prop
  | here {f : FrameId} {c : CellId} : s.here? f x = some c → Searches s x f (some c)
  | outside {f g : FrameId} {found : Option CellId} : s.here? f x = none →
      s.parent? f = some g → Searches s x g found → Searches s x f found
  | nowhere {f : FrameId} : s.here? f x = none → s.parent? f = none → Searches s x f none

/-- The frame `f` is `g` or stands around it, and no frame that is nearer to `g` holds `x`. -/
def Visible (s : Scopes α) (g f : FrameId) (x : Name) : Prop :=
  ∃ n, s.outward? n g = some f ∧ ∀ m < n, ∀ k, s.outward? m g = some k → s.here? k x = none

def seen? (s : Scopes α) (f : FrameId) (x : Name) : Option α := (s.lookup? f x).bind s.read?

/-- A frame stands alone, or it has around it an older frame and whatever stands around that one. -/
def Chained (s : Scopes α) : Prop := ∀ f, s.chain f = [f] ∨ ∃ g < f, s.chain f = f :: s.chain g

theorem parent?_of_chain (h : s.chain f = [f]) : s.parent? f = none := by
  have henclosing : (s.frame f).enclosing = [] := List.tail_eq_of_cons_eq h
  rw [parent?, henclosing, List.head?_nil]

theorem parent?_of_chain_cons (h : s.chain f = f :: s.chain g) : s.parent? f = some g := by
  have henclosing : (s.frame f).enclosing = s.chain g := List.tail_eq_of_cons_eq h
  rw [parent?, henclosing, chain, List.head?_cons]

theorem parent?_congr (h : t.chain f = s.chain f) : t.parent? f = s.parent? f := by
  have henclosing : (t.frame f).enclosing = (s.frame f).enclosing := List.tail_eq_of_cons_eq h
  rw [parent?, henclosing, parent?]

theorem outward?_congr (h : ∀ f, t.chain f = s.chain f) (n : Nat) (f : FrameId) :
    t.outward? n f = s.outward? n f := by
  induction n generalizing f with
  | zero => rfl
  | succ n ih =>
    rw [outward?, outward?, parent?_congr (h f)]
    exact congrArg _ (funext ih)

theorem Chained.lookup?_eq (hs : s.Chained) (f : FrameId) (x : Name) :
    s.lookup? f x = (s.here? f x).or ((s.parent? f).bind fun g => s.lookup? g x) := by
  rcases hs f with hchain | ⟨g, -, hchain⟩
  · rw [parent?_of_chain hchain, lookup?, hchain]
    simp
  · rw [parent?_of_chain_cons hchain, lookup?, hchain, List.findSome?_cons]
    cases s.here? f x <;> rfl

theorem Chained.lt_of_parent? (hs : s.Chained) (h : s.parent? f = some g) : g < f := by
  rcases hs f with hchain | ⟨k, hk, hchain⟩
  · rw [parent?_of_chain hchain] at h
    cases h
  · rw [parent?_of_chain_cons hchain] at h
    exact Option.some.inj h ▸ hk

theorem Chained.le_of_outward? (hs : s.Chained) (h : s.outward? n f = some g) : g ≤ f := by
  induction n generalizing f with
  | zero => exact Nat.le_of_eq (Option.some.inj h).symm
  | succ n ih =>
    obtain ⟨k, hk, hg⟩ := Option.bind_eq_some_iff.mp h
    exact Nat.le_trans (ih hg) (Nat.le_of_lt (hs.lt_of_parent? hk))

theorem Chained.outward?_lt {k : FrameId} {m : Nat} (hs : s.Chained) (hk : s.outward? m f = some k)
    (hg : s.outward? n f = some g) (hmn : m < n) : g < k := by
  induction m generalizing n f with
  | zero =>
    obtain ⟨i, rfl⟩ := Nat.exists_eq_add_one_of_ne_zero (Nat.ne_of_gt hmn)
    obtain ⟨j, hj, hg⟩ := Option.bind_eq_some_iff.mp hg
    have hle : g ≤ j := hs.le_of_outward? hg
    exact Option.some.inj hk ▸ Nat.lt_of_le_of_lt hle (hs.lt_of_parent? hj)
  | succ m ih =>
    obtain ⟨i, rfl⟩ := Nat.exists_eq_add_one_of_ne_zero (Nat.ne_of_gt (Nat.zero_lt_of_lt hmn))
    obtain ⟨j, hj, hk⟩ := Option.bind_eq_some_iff.mp hk
    rw [outward?, hj, Option.bind_some] at hg
    exact ih hk hg (Nat.lt_of_succ_lt_succ hmn)

theorem Chained.searches (hs : s.Chained) (f : FrameId) (x : Name) :
    s.Searches x f (s.lookup? f x) := by
  induction f using Nat.strongRecOn with
  | _ f ih =>
    rw [hs.lookup?_eq]
    cases hx : s.here? f x with
    | some c => exact .here hx
    | none =>
      cases hg : s.parent? f with
      | none => exact .nowhere hx hg
      | some g => exact .outside hx hg (ih g (hs.lt_of_parent? hg))

theorem Chained.searches_iff (hs : s.Chained) {found : Option CellId} :
    s.Searches x f found ↔ s.lookup? f x = found := by
  constructor
  · intro h
    induction h with
    | here hx => rw [hs.lookup?_eq, hx, Option.some_or]
    | outside hx hg _ ih => rw [hs.lookup?_eq, hx, Option.none_or, hg, Option.bind_some, ih]
    | nowhere hx hg => rw [hs.lookup?_eq, hx, Option.none_or, hg, Option.bind_none]
  · rintro rfl
    exact hs.searches f x

theorem visible_self (s : Scopes α) (f : FrameId) (x : Name) : s.Visible f f x :=
  ⟨0, rfl, fun m hm => absurd hm (Nat.not_lt_zero m)⟩

theorem Visible.outside {k : FrameId} (h : s.Visible k f x) (hx : s.here? g x = none)
    (hk : s.parent? g = some k) : s.Visible g f x := by
  obtain ⟨n, hn, hnearer⟩ := h
  refine ⟨n + 1, ?_, ?_⟩
  · rw [outward?, hk, Option.bind_some, hn]
  · intro m hm j hj
    cases m with
    | zero => exact Option.some.inj hj ▸ hx
    | succ m =>
      rw [outward?, hk, Option.bind_some] at hj
      exact hnearer m (Nat.lt_of_succ_lt_succ hm) j hj

/-- Where `x` is not held any nearer, it means what it means in the frame `f`. -/
theorem Chained.lookup?_of_visible (hs : s.Chained) (h : s.Visible g f x) :
    s.lookup? g x = s.lookup? f x := by
  obtain ⟨n, hn, hnearer⟩ := h
  induction n generalizing g with
  | zero => rw [Option.some.inj hn]
  | succ n ih =>
    obtain ⟨k, hk, hf⟩ := Option.bind_eq_some_iff.mp hn
    have hx : s.here? g x = none := hnearer 0 (Nat.zero_lt_succ n) g rfl
    rw [hs.lookup?_eq, hx, Option.none_or, hk, Option.bind_some]
    apply ih hf
    intro m hm j hj
    apply hnearer (m + 1) (Nat.succ_lt_succ hm) j
    rw [outward?, hk, Option.bind_some, hj]

theorem Chained.lookup?_of_here? (hs : s.Chained) (h : s.here? f x = some c) :
    s.lookup? f x = some c := by
  rw [hs.lookup?_eq, h, Option.some_or]

theorem Chained.lookup?_eq_some_iff (hs : s.Chained) :
    s.lookup? f x = some c ↔ ∃ g, s.Visible f g x ∧ s.here? g x = some c := by
  constructor
  · intro h
    have hsearch : s.Searches x f (some c) := hs.searches_iff.mpr h
    clear h
    generalize hfound : some c = found at hsearch
    induction hsearch with
    | @here f d hx =>
      obtain rfl : c = d := Option.some.inj hfound
      exact ⟨f, visible_self s f x, hx⟩
    | outside hx hg _ ih =>
      obtain ⟨k, hvisible, hk⟩ := ih hfound
      exact ⟨k, hvisible.outside hx hg, hk⟩
    | nowhere hx hg => cases hfound
  · rintro ⟨g, hvisible, hg⟩
    rw [hs.lookup?_of_visible hvisible, hs.lookup?_of_here? hg]

theorem Chained.lookup?_eq_none_iff (hs : s.Chained) :
    s.lookup? f x = none ↔ ∀ n g, s.outward? n f = some g → s.here? g x = none := by
  constructor
  · intro h n g hg
    induction n generalizing f with
    | zero =>
      rw [hs.lookup?_eq, Option.or_eq_none_iff] at h
      exact Option.some.inj hg ▸ h.1
    | succ n ih =>
      obtain ⟨k, hk, hkg⟩ := Option.bind_eq_some_iff.mp hg
      rw [hs.lookup?_eq, Option.or_eq_none_iff, hk] at h
      exact ih h.2 hkg
  · intro h
    cases hc : s.lookup? f x with
    | none => rfl
    | some c =>
      obtain ⟨g, ⟨n, hn, -⟩, hg⟩ := hs.lookup?_eq_some_iff.mp hc
      rw [h n g hn] at hg
      cases hg

end Links

section Filling

variable {α : Type} {s t : Scopes α} {f g : FrameId} {x y : Name} {c : CellId}

theorem Chained.of_chain_eq (hs : s.Chained) (h : ∀ f, t.chain f = s.chain f) : t.Chained := by
  intro f
  rcases hs f with hchain | ⟨g, hg, hchain⟩
  · exact .inl ((h f).trans hchain)
  · exact .inr ⟨g, hg, by rw [h f, hchain, h g]⟩

theorem chained_bind (hs : s.Chained) (f : FrameId) (x : Name) (c : CellId) :
    (s.bind f x c).Chained :=
  hs.of_chain_eq (chain_bind s f x c)

theorem Chained.lookup?_bind_of_visible (hs : s.Chained) (hf : f < s.nextFrame)
    (h : s.Visible g f x) : (s.bind f x c).lookup? g x = some c := by
  have ht := chained_bind hs f x c
  have hheld : (s.bind f x c).here? f x = some c := by
    rw [here?_bind hf, if_pos ⟨rfl, rfl⟩]
  have hvisible : (s.bind f x c).Visible g f x := by
    obtain ⟨n, hn, hnearer⟩ := h
    refine ⟨n, (outward?_congr (chain_bind s f x c) n g).trans hn, ?_⟩
    intro m hm k hk
    rw [outward?_congr (chain_bind s f x c)] at hk
    -- a nearer frame is not `f`, which stands further outside
    have hne : ¬(k = f ∧ x = x) := fun h => Nat.ne_of_gt (hs.outward?_lt hk hn hm) h.1
    rw [here?_bind hf, if_neg hne]
    exact hnearer m hm k hk
  rw [ht.lookup?_of_visible hvisible, ht.lookup?_of_here? hheld]

theorem Chained.lookup?_bind_of_not_visible (hs : s.Chained) (hf : f < s.nextFrame)
    (h : ¬(y = x ∧ s.Visible g f x)) : (s.bind f x c).lookup? g y = s.lookup? g y := by
  have ht := chained_bind hs f x c
  induction g using Nat.strongRecOn with
  | _ g ih =>
    have hother : ¬(g = f ∧ y = x) := by
      rintro ⟨rfl, rfl⟩
      exact h ⟨rfl, visible_self s g y⟩
    rw [ht.lookup?_eq, hs.lookup?_eq, here?_bind hf, if_neg hother,
      parent?_congr (chain_bind s f x c g)]
    cases hy : s.here? g y with
    | some d => rfl
    | none =>
      cases hk : s.parent? g with
      | none => rfl
      | some k =>
        have hbelow : ¬(y = x ∧ s.Visible k f x) := by
          rintro ⟨rfl, hvisible⟩
          exact h ⟨rfl, hvisible.outside hy hk⟩
        exact ih k (hs.lt_of_parent? hk) hbelow

end Filling

end Scopes

end ModuleScript
