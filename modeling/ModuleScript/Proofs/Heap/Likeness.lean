import ModuleScript.Proofs.Heap.Graph
import ModuleScript.Proofs.Heap.Rendering
import ModuleScript.Proofs.Number.Equality

/-!
Equal values look alike. Comparing goes through two graphs at once and writing through one, and what
an object is written as depends on the path to it. Main statement: `display_eq_of_equal?`, without
cycles the path has no influence, so that values that are equal have one text, negative zero apart.
-/

namespace ModuleScript

namespace Heap

variable {h : Heap} {u v w : Value} {o : ObjectId} {path path' : List ObjectId} {text : String}
  {R : Value → Value → Prop}

/-- The value below the path is written out, as the tree that it is, and all its zeros as zero. -/
structure WrittenOut (h : Heap) (path : List ObjectId) (v : Value) : Prop where
  acyclic : h.Acyclic v
  around : h.Around path v
  zeros : ¬h.Reaches v (.number (-0.0))

theorem WrittenOut.not_mem (ho : h.WrittenOut path (.object o)) : o ∉ path :=
  ho.around.not_mem ho.acyclic

theorem WrittenOut.field (ho : h.WrittenOut path (.object o))
    (hfield : h.HasField (.object o) v) : h.WrittenOut (o :: path) v where
  acyclic := ho.acyclic.field hfield
  around := ho.around.cons hfield
  zeros hv := ho.zeros (hfield.reaches hv)

theorem WrittenOut.ne_negativeZero {x : Float} (hx : h.WrittenOut path (.number x)) : x ≠ -0.0 := by
  rintro rfl
  exact hx.zeros (reaches_refl _)

/-- The rendering of a value is one of every value that a bisimulation relates to it. -/
theorem Renders.of_bisimulation (hR : h.Bisimulation R) (hu : h.Renders path u text)
    (huv : R u v) (hupath : h.WrittenOut path u) (hvpath : h.WrittenOut path' v) :
    h.Renders path' v text := by
  induction hu generalizing v path' with
  | number path x =>
    cases hR _ _ huv with
    | @number _ y hxy =>
      rw [numberText_eq_of_beq hxy hupath.ne_negativeZero hvpath.ne_negativeZero]
      exact .number path' y
  | boolean path b =>
    cases hR _ _ huv
    exact .boolean path' b
  | string path s =>
    cases hR _ _ huv
    exact .string path' s
  | null path =>
    cases hR _ _ huv
    exact .null path'
  | closure path k => cases hR _ _ huv
  | native path x => cases hR _ _ huv
  | nested ho => exact absurd ho hupath.not_mem
  | empty ho hempty =>
    cases hR _ _ huv with
    | @object _ b hnames hfields =>
      refine .empty hvpath.not_mem ?_
      apply List.eq_nil_iff_forall_not_mem.mpr
      intro x hx
      rw [← hnames, hempty] at hx
      cases hx
  | @object path a names text ho hne hsorted hmem hbelow ih =>
    cases hR _ _ huv with
    | @object _ b hnames hfields =>
      refine .object hvpath.not_mem hne hsorted (fun x => (hmem x).trans (hnames x)) ?_
      intro x w hw
      -- the field of the same name on the left has been rendered below its own path
      have hx : x ∈ (h.fields a).names :=
        (hnames x).mpr (Table.isSome_find?_iff.mp (hw ▸ rfl))
      obtain ⟨u, hu⟩ := Option.isSome_iff_exists.mp (Table.isSome_find?_iff.mpr hx)
      exact ih x u hu (hfields x u w hu hw) (hupath.field (.intro hu)) (hvpath.field (.intro hw))

/--
Values from which neither a cycle nor a negative zero can be reached and that are equal have the
same text, however objects are shared inside and between them and in whatever order their fields
have come in.
-/
theorem display_eq_of_equal? (h : Heap) (u v : Value) (hu : h.Acyclic u) (hv : h.Acyclic v)
    (huzeros : ¬h.Reaches u (.number (-0.0))) (hvzeros : ¬h.Reaches v (.number (-0.0)))
    (hequal : h.equal? u v = .ok true) : h.display u = h.display v := by
  obtain ⟨R, hR, huv⟩ := equal?_eq_true_iff.mp hequal
  have hrenders : h.Renders [] v (h.display u) :=
    (display_renders h u).of_bisimulation hR huv ⟨hu, around_nil u, huzeros⟩
      ⟨hv, around_nil v, hvzeros⟩
  exact (renders_iff.mp hrenders).symm

theorem display_eq_of_equal?_sharing :
    (∀ v ∈ [.object 0, .object 1], sharing.Acyclic v ∧ ¬sharing.Reaches v (.number (-0.0))) ∧
      sharing.equal? (.object 0) (.object 1) = .ok true ∧
      sharing.display (.object 0) = sharing.display (.object 1) := by
  have hzeros (v : Value) (hv : v.kind = .object) : ¬sharing.Reaches v (.number (-0.0)) := by
    intro hreaches
    rcases number_or_object_of_sharing hv hreaches with hzero | hzero
    · exact absurd hzero (by decide)
    · cases hzero
  refine ⟨?_, rfl, ?_⟩
  · intro v hv
    refine ⟨acyclic_sharing v, hzeros v ?_⟩
    rcases List.mem_pair.mp hv with rfl | rfl <;> rfl
  · exact display_eq_of_equal? sharing _ _ (acyclic_sharing _) (acyclic_sharing _)
      (hzeros _ rfl) (hzeros _ rfl) rfl

/-- The two zeros are equal and look different. -/
example : Heap.empty.equal? (.number 0.0) (.number (-0.0)) = .ok true ∧
    Heap.empty.display (.number 0.0) = "0" ∧ Heap.empty.display (.number (-0.0)) = "-0" := by
  exact ⟨rfl, rfl, rfl⟩

end Heap

end ModuleScript
