import Mathlib.Data.List.Forall2
import Mathlib.Data.List.Pairwise
import ModuleScript.Command
import ModuleScript.Proofs.Sessions

/-!
Commands with files. Main statement: `run_files`, the first file that is missing, is not text or
holds no module is all that is reported, and nothing has run then; otherwise a command does what the
session does that loads the files in their order and runs once.
-/

namespace ModuleScript

namespace Command

/-- The bytes of a file spell `source`. -/
def Holds (around : Surroundings) (path source : String) : Prop :=
  ∃ bytes, around.file? path = some bytes ∧ Console.decode? bytes = some source

inductive Refused (around : Surroundings) (path : String) : String → Prop
  | missing : around.file? path = none →
      Refused around path ("could not read " ++ path ++ ": No such file or directory (os error 2)")
  | notText {bytes : List UInt8} : around.file? path = some bytes →
      Console.decode? bytes = none →
        Refused around path ("could not read " ++ path ++ ": stream did not contain valid UTF-8")
  | scan {source : String} {errors : List ScanError} : Holds around path source →
      ModuleScript.scan source = .error errors →
        Refused around path
          ("in " ++ path ++ ": " ++ "\n".intercalate (errors.map ScanError.message))
  | parse {source : String} {ts : List Token} {e : ParseError} : Holds around path source →
      ModuleScript.scan source = .ok ts → parseModule ts = .error e →
        Refused around path ("in " ++ path ++ ": " ++ e.message)

inductive Reported (o : Outcome) : Report → Prop
  | value {v : Value} : o.result = .ok v →
      Reported o ⟨0, o.state.host.console.printed ++ o.state.host.heap.display v ++ "\n", ""⟩
  | fault {e : Fault} : o.result = .error e →
      Reported o ⟨1, o.state.host.console.printed, "error: " ++ e.message ++ "\n"⟩

variable {around : Surroundings} {path source message : String} {m : Module} {session : Session}

/-! Files one by one -/

theorem loadFile_of_holds (h : Holds around path source) (hread : readModule source = .ok m) :
    loadFile around session path = .ok (session.add m) := by
  obtain ⟨bytes, hfile, htext⟩ := h
  simp [loadFile, hfile, htext, Session.load, hread]

theorem loadFile_of_refused (h : Refused around path message) (session : Session) :
    ∃ e : CommandError, loadFile around session path = .error e ∧ e.message = message := by
  cases h with
  | missing hfile => exact ⟨.missing path, by simp [loadFile, hfile], rfl⟩
  | notText hfile htext => exact ⟨.notText path, by simp [loadFile, hfile, htext], rfl⟩
  | @scan source errors hholds hscan =>
    obtain ⟨bytes, hfile, htext⟩ := hholds
    refine ⟨.inFile path (.scan errors), ?_, rfl⟩
    simp [loadFile, hfile, htext, Session.load, readModule, hscan]
  | @parse source ts e hholds hscan hparse =>
    obtain ⟨bytes, hfile, htext⟩ := hholds
    refine ⟨.inFile path (.parse e), ?_, rfl⟩
    simp [loadFile, hfile, htext, Session.load, readModule, hscan, hparse]

theorem exists_holds (h : ∀ message, ¬Refused around path message) :
    ∃ source m, Holds around path source ∧ readModule source = .ok m := by
  cases hfile : around.file? path with
  | none => exact absurd (.missing hfile) (h _)
  | some bytes =>
    cases htext : Console.decode? bytes with
    | none => exact absurd (.notText hfile htext) (h _)
    | some source =>
      have hholds : Holds around path source := ⟨bytes, hfile, htext⟩
      refine ⟨source, ?_⟩
      cases hscan : ModuleScript.scan source with
      | error errors => exact absurd (.scan hholds hscan) (h _)
      | ok ts =>
        cases hparse : parseModule ts with
        | error e => exact absurd (.parse hholds hscan hparse) (h _)
        | ok m => exact ⟨m, hholds, by simp [readModule, hscan, hparse]⟩

theorem not_refused_of_holds (h : Holds around path source) (hread : readModule source = .ok m) :
    ∀ message, ¬Refused around path message := by
  intro message hrefused
  obtain ⟨e, he, -⟩ := loadFile_of_refused hrefused ⟨∅, []⟩
  cases (loadFile_of_holds h hread).symm.trans he

/-! Files in their order -/

structure Spell (around : Surroundings) (files sources : List String) (ms : List Module) :
    Prop where
  holds : List.Forall₂ (Holds around) files sources
  reads : sources.map readModule = ms.map Except.ok

theorem exists_spell {files : List String}
    (h : ∀ path ∈ files, ∀ message, ¬Refused around path message) :
    ∃ sources ms, Spell around files sources ms := by
  induction files with
  | nil => exact ⟨[], [], .nil, rfl⟩
  | cons path files ih =>
    obtain ⟨hpath, hfiles⟩ := List.forall_mem_cons.mp h
    obtain ⟨source, m, hholds, hread⟩ := exists_holds hpath
    obtain ⟨sources, ms, hspell⟩ := ih hfiles
    refine ⟨source :: sources, m :: ms, .cons hholds hspell.holds, ?_⟩
    rw [List.map_cons, List.map_cons, hread, hspell.reads]

theorem loadFiles_append {before sources : List String} {ms : List Module}
    (h : Spell around before sources ms) (after : List String) (session : Session) :
    loadFiles around (before ++ after) session =
      loadFiles around after (ms.foldl Session.add session) := by
  obtain ⟨hholds, hreads⟩ := h
  induction hholds generalizing ms session with
  | nil =>
    obtain rfl : ms = [] := List.map_eq_nil_iff.mp hreads.symm
    rfl
  | @cons path source before sources hholds _ ih =>
    cases ms with
    | nil => cases hreads
    | cons m ms =>
      obtain ⟨hread, hreads⟩ := List.cons.inj hreads
      rw [List.cons_append, loadFiles, loadFile_of_holds hholds hread]
      exact ih (session.add m) hreads

theorem loadFiles_of_refused {before : List String}
    (hbefore : ∀ p ∈ before, ∀ message, ¬Refused around p message)
    (h : Refused around path message) (after : List String) (session : Session) :
    ∃ e : CommandError, loadFiles around (before ++ path :: after) session = .error e ∧
      e.message = message := by
  obtain ⟨sources, ms, hspell⟩ := exists_spell hbefore
  obtain ⟨e, he, hmessage⟩ := loadFile_of_refused h (ms.foldl Session.add session)
  exact ⟨e, by rw [loadFiles_append hspell, loadFiles, he], hmessage⟩

/-! The session -/

theorem after_loads (natives : Table Native) {sources : List String} {ms : List Module}
    (h : sources.map readModule = ms.map Except.ok) :
    Session.after natives (sources.map .load) = ms.foldl Session.add ⟨natives, []⟩ := by
  rw [Session.after, List.foldl_map]
  generalize (⟨natives, []⟩ : Session) = session
  induction sources generalizing ms session with
  | nil =>
    obtain rfl : ms = [] := List.map_eq_nil_iff.mp h.symm
    rfl
  | cons source sources ih =>
    cases ms with
    | nil => cases h
    | cons m ms =>
      obtain ⟨hread, hreads⟩ := List.cons.inj h
      have hload : (session.answer (.load source)).2 = session.add m := by
        simp [Session.answer, Session.load, hread]
      rw [List.foldl_cons, List.foldl_cons, hload]
      exact ih hreads (session.add m)

theorem forall_mem_distinct_iff (m : Module) (ms : List Module) :
    (∀ m' ∈ ms.pwFilter fun m m' => m.name ≠ m'.name, m.name ≠ m'.name) ↔
      ∀ m' ∈ ms, m.name ≠ m'.name := by
  refine List.forall_mem_pwFilter (fun {x y z} hxz => ?_) m ms
  by_cases hxy : x.name = y.name
  · exact .inr fun hyz => hxz (hxy.trans hyz)
  · exact .inl hxy

/-- Of added modules with one name the last one stays, and those that were there before go. -/
theorem foldl_add (ms : List Module) (session : Session) :
    ms.foldl Session.add session = { session with
      modules := (session.modules.filter fun m => ∀ m' ∈ ms, m.name ≠ m'.name) ++
        ms.pwFilter fun m m' => m.name ≠ m'.name } := by
  induction ms generalizing session with
  | nil => simp [List.filter_eq_self.mpr]
  | cons m ms ih =>
    have hothers : ((session.others m.name).filter fun m => ∀ m' ∈ ms, m.name ≠ m'.name) =
        session.modules.filter fun m'' => ∀ m' ∈ m :: ms, m''.name ≠ m'.name := by
      rw [Session.others, List.filter_filter]
      refine List.filter_congr fun m'' _ => ?_
      simp [Bool.and_comm]
    rw [List.foldl_cons, ih, Session.add]
    dsimp only
    rw [List.filter_append, hothers, List.append_assoc]
    by_cases h : ∀ m' ∈ ms, m.name ≠ m'.name
    · have hkept : ([m].filter fun m => ∀ m' ∈ ms, m.name ≠ m'.name) = [m] :=
        List.filter_eq_self.mpr (by simpa using h)
      rw [List.pwFilter_cons_of_pos ((forall_mem_distinct_iff m ms).mpr h), hkept]
      rfl
    · have hgone : ([m].filter fun m => ∀ m' ∈ ms, m.name ≠ m'.name) = [] :=
        List.filter_eq_nil_iff.mpr (by simpa using h)
      rw [List.pwFilter_cons_of_neg (mt (forall_mem_distinct_iff m ms).mp h), hgone]
      rfl

theorem reported_report (o : Outcome) : Reported o (report o) := by
  unfold report
  cases hresult : o.result with
  | ok v => exact .value hresult
  | error e => exact .fault hresult

/--
A command with files. The first file with which something is wrong is the only one reported, before
a step of any run; if there is none, the command writes what comes of one run of the session in
which the files have been loaded in their order, where of modules with one name the last one counts.
-/
theorem run_files (options : Options) (around : Surroundings) (hfiles : options.files ≠ []) :
    (∀ before path after message, options.files = before ++ path :: after →
      (∀ p ∈ before, ∀ m, ¬Refused around p m) → Refused around path message →
        ∀ limit order,
          run options around limit order = some ⟨1, "", "error: " ++ message ++ "\n"⟩) ∧
    ((∀ path ∈ options.files, ∀ message, ¬Refused around path message) →
      ∃ sources ms, Spell around options.files sources ms ∧
        let natives := if options.withNatives then Native.standard else ∅
        let session := Session.after natives (sources.map .load)
        session = ⟨natives, ms.pwFilter fun m m' => m.name ≠ m'.name⟩ ∧
          ∀ limit order,
            Option.Rel Reported (session.run ⟨"", around.input, around.clock, 0⟩ limit order)
              (run options around limit order)) := by
  have hprepare : prepare options around = loadFiles around options.files
      ⟨if options.withNatives then Native.standard else ∅, []⟩ := by
    rw [prepare, if_neg hfiles]
  have hconsole : console options around = ⟨"", around.input, around.clock, 0⟩ := by
    rw [console, if_neg hfiles]
  refine ⟨fun before path after message hsplit hbefore hrefused limit order => ?_, fun hnone => ?_⟩
  · obtain ⟨e, he, rfl⟩ := loadFiles_of_refused hbefore hrefused after _
    rw [← hsplit, ← hprepare] at he
    simp only [run, he]
    rfl
  · obtain ⟨sources, ms, hspell⟩ := exists_spell hnone
    refine ⟨sources, ms, hspell, ?_⟩
    dsimp only
    generalize (if options.withNatives then Native.standard else ∅) = natives at hprepare ⊢
    have hsession : ms.foldl Session.add ⟨natives, []⟩ =
        ⟨natives, ms.pwFilter fun m m' => m.name ≠ m'.name⟩ := by
      rw [foldl_add]
      rfl
    have hload : prepare options around = .ok (ms.foldl Session.add ⟨natives, []⟩) := by
      rw [hprepare, ← List.append_nil options.files, loadFiles_append hspell]
      rfl
    rw [after_loads natives hspell.reads]
    refine ⟨hsession, fun limit order => ?_⟩
    simp only [run, hload, hconsole]
    cases Session.run _ _ limit order with
    | none => exact .none
    | some outcome => exact .some (reported_report outcome)

/-- The first file holds a module, the second one is empty, and there is no third one. -/
theorem run_files_emptySecond :
    let around : Surroundings :=
      ⟨fun path =>
        if path = "lib" then some [109, 111, 100, 117, 108, 101, 32, 76, 123, 125]
        else if path = "empty" then some [] else none, [], fun _ => 0⟩
    (⟨["lib", "empty", "gone"], false⟩ : Options).files ≠ [] ∧
      (∀ p ∈ ["lib"], ∀ m, ¬Refused around p m) ∧
        ∀ limit order, run ⟨["lib", "empty", "gone"], false⟩ around limit order =
          some ⟨1, "", "error: in empty: Expected \"module\", found end of input\n"⟩ := by
  intro around
  have hlib : Holds around "lib" "module L\x7b\x7d" := ⟨_, rfl, by decide +kernel⟩
  have hok : (readModule "module L\x7b\x7d").isOk = true := by decide +kernel
  obtain ⟨m, hread⟩ : ∃ m, readModule "module L\x7b\x7d" = .ok m := by
    cases hread : readModule "module L\x7b\x7d" with
    | error e =>
      rw [hread] at hok
      cases hok
    | ok m => exact ⟨m, rfl⟩
  have hfirst : ∀ p ∈ ["lib"], ∀ m, ¬Refused around p m :=
    List.forall_mem_singleton.mpr (not_refused_of_holds hlib hread)
  have hempty : Holds around "empty" "" := ⟨_, rfl, by decide +kernel⟩
  have hscan : ModuleScript.scan "" = .ok [] := by decide +kernel
  have hsecond := Refused.parse hempty hscan rfl
  have hfiles : (⟨["lib", "empty", "gone"], false⟩ : Options).files ≠ [] := List.cons_ne_nil _ _
  refine ⟨hfiles, hfirst, ?_⟩
  exact (run_files _ around hfiles).1 ["lib"] "empty" ["gone"] _ rfl hfirst hsecond

end Command

end ModuleScript
