import Mathlib.Data.List.Induction
import ModuleScript.Proofs.Machine.Faults
import ModuleScript.Session

/-!
Sessions and their histories. Main statement: `accounted_by_history`, after any requests a session
holds, in the order of their loads, exactly the modules whose load no later request has undone, and
a run fails for want of a main module exactly when none is stored.
-/

namespace ModuleScript

namespace Session

inductive Request where
  | load (source : String)
  | unload (x : Name)
  | run (console : Console) (order : FieldOrder)

/-- What a session answers. A run has an outcome for every limit that lets it come to its end. -/
inductive Reply where
  | loaded (x : Name)
  | failed (e : LoadError)
  | unloaded (found : Bool)
  | ran (outcome : Nat → Option Outcome)

def answer (s : Session) : Request → Reply × Session
  | .load source =>
    match s.load source with
    | .ok (x, t) => (.loaded x, t)
    | .error e => (.failed e, s)
  | .unload x => (.unloaded (s.unload x).1, (s.unload x).2)
  | .run console order => (.ran fun limit => s.run console limit order, s)

def after (natives : Table Native) (history : List Request) : Session :=
  history.foldl (fun s r => (s.answer r).2) ⟨natives, []⟩

namespace Request

def module? : Request → Option Module
  | load source => (readModule source).toOption
  | _ => none

def removes (x : Name) : Request → Bool
  | unload y => y = x
  | r => r.module?.any fun m => m.name = x

end Request

/--
The request at position `i` of the history loaded `m`, and since then no module of this name has
been loaded and none unloaded.
-/
structure Standing (history : List Request) (i : Nat) (m : Module) : Prop where
  loaded : ∃ r, history[i]? = some r ∧ r.module? = some m
  kept : ∀ j r, i < j → history[j]? = some r → r.removes m.name = false

structure Accounted (natives : Table Native) (history : List Request) (s : Session) : Prop where
  distinct : s.modules.Pairwise fun m m' => m.name ≠ m'.name
  stored : ∃ loads : List (Nat × Module), s.modules = loads.map Prod.snd ∧
    (loads.Pairwise fun a b => a.1 < b.1) ∧ ∀ i m, (i, m) ∈ loads ↔ Standing history i m
  loaded : ∀ source m, readModule source = .ok m →
    (s.answer (.load source)).1 = .loaded m.name
  failed : ∀ source e, readModule source = .error e → s.answer (.load source) = (.failed e, s)
  unloaded : ∀ x, ∃ found, (s.answer (.unload x)).1 = .unloaded found ∧
    (found = true ↔ ∃ m ∈ s.modules, m.name = x)
  ran : ∀ console order, s.answer (.run console order) =
    (.ran (Program.run ⟨s.modules, natives⟩ ⟨.empty order, console⟩), s)
  oneMain : ∀ console limit order,
    (s.run console limit order).map Outcome.result ≠ some (.error .multipleMains)
  noMain : ∀ console limit order,
    (s.run console limit order).map Outcome.result = some (.error .noMain) ↔
      ∀ m ∈ s.modules, m.name ≠ mainModule

section History

variable {natives : Table Native} {history : List Request} {r : Request} {i : Nat} {m : Module}
  {s : Session}

theorem after_append (natives : Table Native) (history : List Request) (r : Request) :
    after natives (history ++ [r]) = ((after natives history).answer r).2 := by
  simp [after]

theorem modules_answer (s : Session) (r : Request) :
    (s.answer r).2.modules =
      (s.modules.filter fun m => !r.removes m.name) ++ r.module?.toList := by
  cases r with
  | load source =>
    cases hread : readModule source with
    | error e =>
      simp [answer, load, hread, Request.removes, Request.module?, Except.toOption,
        List.filter_eq_self.mpr]
    | ok m =>
      simp [answer, load, hread, Request.removes, Request.module?, Except.toOption, add, others,
        eq_comm]
  | unload x => simp [answer, unload, others, Request.removes, Request.module?, eq_comm]
  | run console order =>
    simp [answer, Request.removes, Request.module?, List.filter_eq_self.mpr]

theorem natives_answer (s : Session) (r : Request) : (s.answer r).2.natives = s.natives := by
  cases r with
  | load source =>
    rw [answer, load]
    cases readModule source <;> rfl
  | unload x => rfl
  | run console order => rfl

theorem natives_after (natives : Table Native) (history : List Request) :
    (after natives history).natives = natives := by
  induction history using List.reverseRecOn with
  | nil => rfl
  | append_singleton history r ih => rw [after_append, natives_answer, ih]

theorem Standing.lt_length (h : Standing history i m) : i < history.length := by
  obtain ⟨r, hr, -⟩ := h.loaded
  exact (List.getElem?_eq_some_iff.mp hr).1

theorem removes_of_module? (h : r.module? = some m) : r.removes m.name = true := by
  cases r with
  | load source => simp [Request.removes, h]
  | _ => cases h

theorem standing_append_iff :
    Standing (history ++ [r]) i m ↔
      (Standing history i m ∧ r.removes m.name = false) ∨
        i = history.length ∧ r.module? = some m := by
  constructor
  · intro h
    have hlt := h.lt_length
    obtain ⟨q, hq, hm⟩ := h.loaded
    rw [List.length_append, List.length_singleton] at hlt
    rcases Nat.lt_succ_iff_lt_or_eq.mp hlt with hold | rfl
    · rw [List.getElem?_append_left hold] at hq
      refine .inl ⟨⟨⟨q, hq, hm⟩, ?_⟩, ?_⟩
      · intro j q' hij hq'
        have hj : j < history.length := (List.getElem?_eq_some_iff.mp hq').1
        exact h.kept j q' hij (by rw [List.getElem?_append_left hj, hq'])
      · exact h.kept history.length r hold List.getElem?_concat_length
    · rw [List.getElem?_concat_length] at hq
      exact .inr ⟨rfl, Option.some.inj hq ▸ hm⟩
  · rintro (⟨h, hr⟩ | ⟨rfl, hm⟩)
    · obtain ⟨q, hq, hm⟩ := h.loaded
      refine ⟨⟨q, ?_, hm⟩, ?_⟩
      · rw [List.getElem?_append_left h.lt_length, hq]
      · intro j q' hij hq'
        rcases Nat.lt_or_ge j history.length with hj | hj
        · rw [List.getElem?_append_left hj] at hq'
          exact h.kept j q' hij hq'
        · rw [List.getElem?_append_right hj] at hq'
          obtain rfl := List.mem_singleton.mp (List.mem_of_getElem? hq')
          exact hr
    · refine ⟨⟨r, List.getElem?_concat_length, hm⟩, ?_⟩
      intro j q hj hq
      have hlt := (List.getElem?_eq_some_iff.mp hq).1
      rw [List.length_append, List.length_singleton] at hlt
      exact absurd hlt (Nat.not_lt_of_le hj)

/-- By induction on the history: each request keeps the account. -/
theorem exists_loads (natives : Table Native) (history : List Request) :
    ∃ loads : List (Nat × Module), (after natives history).modules = loads.map Prod.snd ∧
      (loads.Pairwise fun a b => a.1 < b.1) ∧ ∀ i m, (i, m) ∈ loads ↔ Standing history i m := by
  induction history using List.reverseRecOn with
  | nil =>
    refine ⟨[], rfl, List.Pairwise.nil, ?_⟩
    intro i m
    constructor
    · intro h
      cases h
    · intro h
      exact absurd h.lt_length (Nat.not_lt_zero i)
  | append_singleton history r ih =>
    obtain ⟨loads, hmodules, hordered, hmem⟩ := ih
    refine ⟨(loads.filter fun a => !r.removes a.2.name) ++
      r.module?.toList.map fun m => (history.length, m), ?_, ?_, ?_⟩
    · rw [after_append, modules_answer, hmodules, List.map_append, List.filter_map, List.map_map]
      simp [Function.comp_def]
    · rw [List.pairwise_append]
      refine ⟨hordered.filter _, ?_, ?_⟩
      · cases r.module? <;> simp
      · intro a ha b hb
        have hstanding := (hmem a.1 a.2).mp (List.mem_filter.mp ha).1
        obtain ⟨m, -, rfl⟩ := List.mem_map.mp hb
        exact hstanding.lt_length
    · intro i m
      have hnew : (∃ a ∈ r.module?.toList, (history.length, a) = (i, m)) ↔
          i = history.length ∧ r.module? = some m := by
        constructor
        · rintro ⟨a, ha, heq⟩
          cases heq
          exact ⟨rfl, Option.mem_toList.mp ha⟩
        · rintro ⟨rfl, hm⟩
          exact ⟨m, Option.mem_toList.mpr hm, rfl⟩
      rw [standing_append_iff, ← hmem, List.mem_append, List.mem_filter, List.mem_map, hnew,
        Bool.not_eq_true']

theorem distinct_of_loads {loads : List (Nat × Module)}
    (hordered : loads.Pairwise fun a b => a.1 < b.1)
    (hmem : ∀ i m, (i, m) ∈ loads → Standing history i m) :
    (loads.map Prod.snd).Pairwise fun m m' => m.name ≠ m'.name := by
  rw [List.pairwise_map]
  refine hordered.imp_of_mem ?_
  intro a b ha hb hlt hname
  obtain ⟨r, hr, hm⟩ := (hmem b.1 b.2 hb).loaded
  have hkept := (hmem a.1 a.2 ha).kept b.1 r hlt hr
  rw [hname, removes_of_module? hm] at hkept
  cases hkept

end History

section Mains

variable {p : Program} {host : Host} {limit : Nat} {o : Outcome}

theorem start_of_distinct (p : Program) (host : Host)
    (h : p.modules.Pairwise fun m m' => m.name ≠ m'.name) :
    p.start host = .error .noMain ∧ (∀ m ∈ p.modules, m.name ≠ mainModule) ∨
      ∃ main ∈ p.modules, main.name = mainModule ∧ ∃ c, p.start host = .ok c := by
  have hmain {m : Module} {mains : List Module}
      (hmains : (p.modules.filter fun m => m.name = mainModule) = mains) (hm : m ∈ mains) :
      m ∈ p.modules ∧ m.name = mainModule := by
    rw [← hmains] at hm
    simpa using hm
  rw [Program.start]
  split
  · rename_i hnone
    refine .inl ⟨rfl, ?_⟩
    simpa using hnone
  · rename_i main hone
    obtain ⟨hmem, hname⟩ := hmain hone List.mem_cons_self
    exact .inr ⟨main, hmem, hname, _, rfl⟩
  · rename_i hnone hone
    cases hmains : p.modules.filter fun m => m.name = mainModule with
    | nil => exact absurd hmains hnone
    | cons main others =>
      cases others with
      | nil => exact absurd hmains (hone main)
      | cons other rest =>
        -- two modules of one name
        have hpair : (main :: other :: rest).Pairwise fun m m' => m.name ≠ m'.name :=
          hmains ▸ h.filter _
        have hne := (List.pairwise_cons.mp hpair).1 other List.mem_cons_self
        have hfirst := (hmain hmains List.mem_cons_self).2
        have hsecond := (hmain hmains (List.mem_cons_of_mem main List.mem_cons_self)).2
        exact absurd (hfirst.trans hsecond.symm) hne

theorem result_ne_of_run {c : Config} {e : Fault} (hstart : p.start host = .ok c)
    (h : Machine.run p limit c = some o) (he : e = .noMain ∨ e = .multipleMains) :
    o.result ≠ .error e := by
  intro hresult
  obtain ⟨main, -, rfl⟩ := Program.start_eq_ok_iff.mp hstart
  rcases Machine.raises_of_run h hresult with hfault | ⟨k, d, -, hraises⟩
  · cases hfault
  · rcases he with rfl | rfl <;> cases hraises with
    | values hcontrol hconcerns => cases hconcerns

end Mains

/-- After any number of requests, whichever of them have failed. -/
theorem accounted_by_history (natives : Table Native) (history : List Request) :
    Accounted natives history (after natives history) := by
  obtain ⟨loads, hmodules, hordered, hmem⟩ := exists_loads natives history
  have hdistinct : (after natives history).modules.Pairwise fun m m' => m.name ≠ m'.name := by
    rw [hmodules]
    exact distinct_of_loads hordered fun i m => (hmem i m).mp
  have hstart (console : Console) (order : FieldOrder) :=
    start_of_distinct (after natives history).program ⟨.empty order, console⟩ hdistinct
  constructor
  · exact hdistinct
  · exact ⟨loads, hmodules, hordered, hmem⟩
  · intro source m hread
    simp [answer, load, hread]
  · intro source e hread
    simp [answer, load, hread]
  · intro x
    refine ⟨_, rfl, ?_⟩
    simp [unload]
  · intro console order
    have hprogram :
        (after natives history).program = ⟨(after natives history).modules, natives⟩ := by
      rw [program, natives_after]
    rw [answer, ← hprogram]
    rfl
  · intro console limit order hresult
    obtain ⟨o, ho, hfails⟩ := Option.map_eq_some_iff.mp hresult
    rw [run, Program.run] at ho
    rcases hstart console order with ⟨hnone, -⟩ | ⟨main, -, -, c, hc⟩
    · rw [hnone] at ho
      obtain rfl := Option.some.inj ho
      cases hfails
    · rw [hc] at ho
      exact result_ne_of_run hc ho (.inr rfl) hfails
  · intro console limit order
    rw [run, Program.run]
    rcases hstart console order with ⟨hnone, hmains⟩ | ⟨main, hmain, hname, c, hc⟩
    · rw [hnone]
      exact ⟨fun _ => hmains, fun _ => rfl⟩
    · rw [hc]
      constructor
      · intro hresult
        obtain ⟨o, ho, hfails⟩ := Option.map_eq_some_iff.mp hresult
        exact absurd hfails (result_ne_of_run hc ho (.inl rfl))
      · intro hmains
        exact absurd hname (hmains main hmain)

end Session

end ModuleScript
