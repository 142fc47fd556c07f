import Mathlib.Data.List.Perm.Basic
import ModuleScript.Proofs.Linking.Imports
import ModuleScript.Proofs.Machine.Agreement

/-!
Which modules a program depends on. Main statement: `linked_by_imports`, programs with the same
linked modules run alike, whatever other modules there are and in whatever order they come.
-/

namespace ModuleScript

/--
What a run depends on, among lists of modules: the only main module and the first modules of the
names that are linked. So the order of modules with different names has no influence, nor have later
modules of a name that is there already, nor those that are not linked, nor those under the name of
the native functions.
-/
structure LinkedByImports (natives : Table Native) (host : Host) : Prop where
  agreeing : ∀ {modules modules' : List Module} {main main' : Module},
    (modules.filter fun m => m.name = mainModule) = [main] →
    (modules'.filter fun m => m.name = mainModule) = [main'] →
    (∀ x, Linked modules x →
      (modules.find? fun m => m.name = x) = modules'.find? fun m => m.name = x) →
      RunAlike ⟨modules, natives⟩ ⟨modules', natives⟩ host
  permuted : ∀ {modules modules' : List Module}, modules.Perm modules' →
    (modules.map Module.name).Nodup → RunAlike ⟨modules, natives⟩ ⟨modules', natives⟩ host
  repeated : ∀ {modules more : List Module},
    (∀ m ∈ more, m.name ≠ mainModule ∧ m.name ∈ modules.map Module.name) →
      RunAlike ⟨modules, natives⟩ ⟨modules ++ more, natives⟩ host
  added : ∀ {before after : List Module} {m : Module}, m.name ≠ mainModule →
    ¬Linked (before ++ after) m.name →
      RunAlike ⟨before ++ after, natives⟩ ⟨before ++ m :: after, natives⟩ host
  removed : ∀ {before after : List Module} {m : Module}, m.name ≠ mainModule →
    ¬Linked (before ++ m :: after) m.name →
      RunAlike ⟨before ++ m :: after, natives⟩ ⟨before ++ after, natives⟩ host
  native : ∀ {before after : List Module} {m : Module}, m.name = nativeModule →
    RunAlike ⟨before ++ after, natives⟩ ⟨before ++ m :: after, natives⟩ host

variable {natives : Table Native} {host : Host} {modules modules' before after : List Module}
  {m : Module} {x : Name}

theorem runAlike_of_linked
    (hmain : (modules.filter fun m => m.name = mainModule) =
      modules'.filter fun m => m.name = mainModule)
    (h : ∀ x, Linked modules x →
      (modules.find? fun m => m.name = x) = modules'.find? fun m => m.name = x) :
    RunAlike ⟨modules, natives⟩ ⟨modules', natives⟩ host := by
  apply runAlike_of_agree
  · rw [Program.start, Program.start, hmain]
  · intro n c hc
    refine ⟨fun x names rest f hcontrol hx => ?_, fun _ _ _ _ _ _ => rfl, fun _ _ _ => rfl⟩
    exact h x ((writes_of_executed hc hcontrol).linked hx)

theorem filter_name_eq_of_perm (h : modules.Perm modules')
    (hnames : (modules.map Module.name).Nodup) (x : Name) :
    (modules.filter fun m => m.name = x) = modules'.filter fun m => m.name = x := by
  have hperm := h.filter fun m => m.name = x
  have hnodup : ((modules.filter fun m => m.name = x).map Module.name).Nodup :=
    hnames.sublist (List.filter_sublist.map _)
  have hname : ∀ m ∈ modules.filter fun m => m.name = x, m.name = x := by
    intro m hm
    simpa using (List.mem_filter.mp hm).2
  generalize (modules.filter fun m => m.name = x) = found at hperm hnodup hname ⊢
  match found with
  | [] => exact (List.nil_perm.mp hperm).symm
  | [m] => exact List.singleton_perm.mp hperm
  | m :: m' :: rest =>
    have hsame : m.name = m'.name := by
      rw [hname m (by simp), hname m' (by simp)]
    simp [hsame] at hnodup

theorem find?_name_eq_of_filter
    (h : (modules.filter fun m => m.name = x) = modules'.filter fun m => m.name = x) :
    (modules.find? fun m => m.name = x) = modules'.find? fun m => m.name = x := by
  rw [← List.head?_filter, ← List.head?_filter, h]

theorem filter_name_insert (hx : m.name ≠ x) :
    ((before ++ m :: after).filter fun m => m.name = x) =
      (before ++ after).filter fun m => m.name = x := by
  simp [List.filter_append, hx]

theorem find?_name_insert (hx : m.name ≠ x) :
    ((before ++ m :: after).find? fun m => m.name = x) =
      (before ++ after).find? fun m => m.name = x :=
  find?_name_eq_of_filter (filter_name_insert hx)

theorem filter_name_append {more : List Module} (h : ∀ m ∈ more, m.name ≠ x) :
    ((modules ++ more).filter fun m => m.name = x) = modules.filter fun m => m.name = x := by
  have hmore : (more.filter fun m => m.name = x) = [] := by
    rw [List.filter_eq_nil_iff]
    simpa using h
  rw [List.filter_append, hmore, List.append_nil]

theorem find?_name_append {more : List Module}
    (h : ∀ m ∈ more, m.name ∈ modules.map Module.name) :
    ((modules ++ more).find? fun m => m.name = x) = modules.find? fun m => m.name = x := by
  rw [List.find?_append]
  cases hfound : modules.find? fun m => m.name = x with
  | some m => rfl
  | none =>
    have hmore : (more.find? fun m => m.name = x) = none := by
      rw [List.find?_eq_none] at hfound ⊢
      intro m hm hx
      obtain ⟨m', hm', hname⟩ := List.mem_map.mp (h m hm)
      apply hfound m' hm'
      rw [hname]
      exact hx
    rw [hmore]
    rfl

theorem linked_by_imports (natives : Table Native) (host : Host) :
    LinkedByImports natives host := by
  have hadded {before after : List Module} {m : Module} (hmain : m.name ≠ mainModule)
      (hm : ¬Linked (before ++ after) m.name) :
      RunAlike ⟨before ++ after, natives⟩ ⟨before ++ m :: after, natives⟩ host := by
    apply runAlike_of_linked (filter_name_insert hmain).symm
    intro x hx
    have hne : m.name ≠ x := fun heq => hm (heq ▸ hx)
    exact (find?_name_insert hne).symm
  constructor
  · intro modules modules' main main' hmain hmain' hagree
    have hfirst := Program.module?_main (p := ⟨modules, natives⟩) hmain
    have hfirst' := Program.module?_main (p := ⟨modules', natives⟩) hmain'
    have hsame : some main = some main' :=
      hfirst.symm.trans ((hagree mainModule .main).trans hfirst')
    apply runAlike_of_linked _ hagree
    rw [hmain, hmain', Option.some.inj hsame]
  · intro modules modules' hperm hnames
    have hfilter := filter_name_eq_of_perm hperm hnames
    exact runAlike_of_linked (hfilter mainModule) fun x _ => find?_name_eq_of_filter (hfilter x)
  · intro modules more hmore
    apply runAlike_of_linked
    · exact (filter_name_append fun m hm => (hmore m hm).1).symm
    · intro x _
      exact (find?_name_append fun m hm => (hmore m hm).2).symm
  · intro before after m hmain hm
    exact hadded hmain hm
  · intro before after m hmain hm
    apply runAlike_of_linked (filter_name_insert hmain)
    intro x hx
    have hne : m.name ≠ x := fun heq => hm (heq ▸ hx)
    exact find?_name_insert hne
  · intro before after m hm
    have hmain : m.name ≠ mainModule := by
      rw [hm]
      decide
    exact hadded hmain (hm ▸ not_linked_nativeModule _)

end ModuleScript
