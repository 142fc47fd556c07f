import ModuleScript.Native
import ModuleScript.Proofs.Machine.Changes
import ModuleScript.Proofs.Machine.Values
import ModuleScript.Proofs.Scoping.Steps

/-!
Lexical scoping of whole runs. Main statement: `lexical_scoping`, each closure was declared in the
block of its frame, the chain of a frame follows the blocks around its block up to the body of a
started module, and a name that none of these blocks declares is not in scope.
-/

namespace ModuleScript

variable {p : Program} {host : Host}

/-- What can be continued again and again is continued along a sequence. -/
theorem exists_sequence {α : Type} {Q : Nat → α → Prop} {T : Nat → α → α → Prop} {a : α}
    (ha : Q 0 a) (hstep : ∀ n a, Q n a → ∃ a', T n a a' ∧ Q (n + 1) a') :
    ∃ as : Nat → α, as 0 = a ∧ (∀ n, T n (as n) (as (n + 1))) ∧ ∀ n, Q n (as n) := by
  choose next htrans hnext using hstep
  let build : (n : Nat) → { a : α // Q n a } := fun n =>
    n.rec ⟨a, ha⟩ fun n b => ⟨next n b.1 b.2, hnext n b.1 b.2⟩
  exact ⟨fun n => (build n).1, rfl, fun n => htrans n _ (build n).2, fun n => (build n).2⟩

theorem continues_start {c : Config} (h : p.start host = .ok c) : Machine.Continues p [] c := by
  obtain ⟨main, hmain, rfl⟩ := Program.start_eq_ok_iff.mp h
  have hempty : Scoped p [] (State.initial host) := by
    refine ⟨rfl, fun f hf => absurd hf (Nat.not_lt_zero f), fun k closure hk => ?_⟩
    simp [State.initial] at hk
  have hs := hempty.startModule (Program.module?_main hmain) (Table.find?_empty mainModule)
  have hbody : BlockAt [⟨[], main.body⟩] 0 fun b => main.body <:+ b.body :=
    ⟨_, rfl, List.suffix_refl _⟩
  refine Machine.continues_of_opens (b := ⟨[], main.body⟩) ⟨hbody, List.forall_mem_nil _, hs⟩ ?_
  refine ⟨rfl, fun y => ?_⟩
  have hnone : (State.initial host).scopes.newRoot.here? 0 y = none := by
    rw [Scopes.newRoot, Scopes.here?_newFrame, Scopes.here?_eq_none (Nat.zero_le _)]
  simp [State.startModule, hnone]

/-- Blocks for the frames of a run: they are kept, and new ones have just been opened. -/
structure BlocksOf (p : Program) (host : Host) (blocks : Nat → List Block) : Prop where
  kept : ∀ n, blocks n <+: blocks (n + 1)
  lexical : ∀ n c, p.Reaches host n c → Lexical p (blocks n) c
  opened : ∀ n c, p.Reaches host n c → ∀ f b, (blocks n)[f]? = some b →
    (∀ k, n = k + 1 → (blocks k).length ≤ f) → Opens c f b

theorem exists_blocksOf (p : Program) (host : Host) : ∃ blocks, BlocksOf p host blocks := by
  have hstart : ∃ blocks, ∀ c, p.Reaches host 0 c →
      Lexical p blocks c ∧ ∀ f b, blocks[f]? = some b → Opens c f b := by
    by_cases h : ∃ c, p.Reaches host 0 c
    · obtain ⟨c, hc⟩ := h
      obtain ⟨blocks, -, hlexical, hopens⟩ := continues_start (Program.reaches_zero_iff.mp hc)
      refine ⟨blocks, fun d hd => hc.unique hd ▸ ⟨hlexical, fun f b hb => ?_⟩⟩
      exact hopens f b (Nat.zero_le f) hb
    · exact ⟨[], fun c hc => absurd ⟨c, hc⟩ h⟩
  obtain ⟨blocks₀, h₀⟩ := hstart
  -- a step is reached by at most one configuration, so its blocks can be chosen once
  have hstep (n : Nat) (blocks : List Block)
      (hn : ∀ c, p.Reaches host n c → Lexical p blocks c) :
      ∃ more, (blocks <+: more ∧ ∀ d, p.Reaches host (n + 1) d → ∀ f b, blocks.length ≤ f →
        more[f]? = some b → Opens d f b) ∧ ∀ d, p.Reaches host (n + 1) d → Lexical p more d := by
    by_cases h : ∃ d, p.Reaches host (n + 1) d
    · obtain ⟨d, hd⟩ := h
      obtain ⟨c, hc, hstep⟩ := Program.reaches_succ_iff.mp hd
      obtain ⟨more, hmore, hlexical, hopens⟩ := Machine.step_continues (hn c hc) hstep
      exact ⟨more, ⟨hmore, fun d' hd' => hd.unique hd' ▸ hopens⟩,
        fun d' hd' => hd.unique hd' ▸ hlexical⟩
    · exact ⟨blocks, ⟨List.prefix_refl _, fun d hd => absurd ⟨d, hd⟩ h⟩,
        fun d hd => absurd ⟨d, hd⟩ h⟩
  obtain ⟨blocks, hzero, htrans, hlexical⟩ := exists_sequence (fun c hc => (h₀ c hc).1) hstep
  refine ⟨blocks, fun n => (htrans n).1, hlexical, fun n c hc f b hb hnew => ?_⟩
  cases n with
  | zero => exact (h₀ c hc).2 f b (hzero ▸ hb)
  | succ n => exact (htrans n).2 c hc f b (hnew n rfl) hb

section Closures

def Value.ClosureBelow (n : Nat) (v : Value) : Prop := ∀ k, v = .closure k → k < n

theorem closureBelow_of_not_isCallable {n : Nat} {v : Value} (h : v.isCallable = false) :
    v.ClosureBelow n := by
  rintro k rfl
  cases h

theorem Value.ClosureBelow.mono {m n : Nat} {v : Value} (h : v.ClosureBelow m) (hmn : m ≤ n) :
    v.ClosureBelow n :=
  fun k hk => Nat.lt_of_lt_of_le (h k hk) hmn

theorem Config.All.imp {P Q : Value → Prop} {c : Config} (h : c.All P) (hPQ : ∀ v, P v → Q v) :
    c.All Q where
  control v hv := hPQ v (h.control v hv)
  stack w hw v hv := hPQ v (h.stack w hw v hv)
  state := ⟨fun c v hv => hPQ v (h.state.cells c v hv),
    fun o x v hv => hPQ v (h.state.fields o x v hv)⟩

theorem start_all {P : Value → Prop} {c : Config} (hheap : host.heap.All P)
    (h : p.start host = .ok c) : c.All P := by
  obtain ⟨main, -, rfl⟩ := Program.start_eq_ok_iff.mp h
  refine ⟨List.forall_mem_nil P, List.forall_mem_nil _, ?_, hheap⟩
  intro cell v hv
  simp [State.initial, State.startModule, Scopes.newRoot, Scopes.newFrame, Scopes.empty,
    Scopes.read?] at hv

/--
A native function answers with no closures of its own and leaves none in objects: those that it
passes on are not beyond the ones that it gets.
-/
def Native.InventsNoClosures (native : Native) : Prop := ∀ n, native.Keeps (·.ClosureBelow n)

theorem all_closureBelow (hheap : host.heap.All (·.ClosureBelow 0))
    (hnatives : ∀ x native, p.natives.find? x = some native → native.InventsNoClosures)
    {n : Nat} {c : Config} (h : p.Reaches host n c) :
    c.All (·.ClosureBelow c.state.closures.size) := by
  refine h.induction (P := fun _ c => c.All (·.ClosureBelow c.state.closures.size)) ?_ ?_
  · intro c hc
    exact (start_all hheap hc).imp fun v hv => hv.mono (Nat.zero_le _)
  · intro n c d _ hall hstep
    have hsize := (Machine.step_change hstep).size_closures_le
    refine Machine.step_all (fun v hv => closureBelow_of_not_isCallable hv)
      (fun x native _ hx => hnatives x native hx _) ?_ ?_
      (hall.imp fun v hv => hv.mono hsize) hstep
    · intro x routine rest f hc
      obtain ⟨control, stack, s⟩ := c
      obtain rfl : control = _ := hc
      obtain rfl := Progress.next.inj hstep
      rintro k hk
      obtain rfl := Value.closure.inj hk
      have hpush : (s.closures.push ⟨routine, f⟩).size = s.closures.size + 1 := Array.size_push ..
      exact Nat.lt_of_lt_of_eq (Nat.lt_succ_self _) hpush.symm
    · intro names rest f _ y _ _ k hk
      cases hk

theorem standard_keeps {P : Value → Prop} (hdata : ∀ v, v.isCallable = false → P v)
    {x : Name} {native : Native} (h : Native.standard.find? x = some native) : native.Keeps P := by
  have hmem := Table.mem_of_find?_ofList h
  simp only [List.mem_cons, Prod.mk.injEq, List.not_mem_nil, or_false] at hmem
  intro args host hargs hheap
  rcases hmem with ⟨-, rfl⟩ | ⟨-, rfl⟩ | ⟨-, rfl⟩ | ⟨-, rfl⟩
  · exact ⟨hdata _ rfl, hheap⟩
  · exact ⟨hdata _ rfl, hheap⟩
  · have hrun : Native.parseNum.run args host = parseNum (args.headD .null) host := rfl
    rw [hrun, parseNum]
    split
    · exact ⟨hdata _ rfl, Heap.all_alloc hheap fun v hv => by
        simp only [List.map_cons, List.map_nil, List.mem_cons, List.not_mem_nil, or_false] at hv
        rcases hv with rfl | rfl <;> exact hdata _ rfl⟩
    · exact ⟨hdata _ rfl, Heap.all_alloc hheap fun v hv => by
        simp only [List.map_cons, List.map_nil, List.mem_singleton] at hv
        exact hv ▸ hdata _ rfl⟩
  · exact ⟨hdata _ rfl, hheap⟩

theorem all_made (hheap : host.heap.All (·.ClosureBelow 0))
    (hnatives : ∀ x native, p.natives.find? x = some native → native.InventsNoClosures)
    {n : Nat} {c : Config} (h : p.Reaches host n c) :
    c.All fun v => ∀ k, v = .closure k → ∃ closure, c.state.closures[k]? = some closure := by
  refine (all_closureBelow hheap hnatives h).imp fun v hv k hk => ?_
  exact ⟨_, Array.getElem?_eq_getElem (hv k hk)⟩

end Closures

section References

variable {blocks : List Block} {s : State} {f : FrameId} {x y : Name} {m : Module}
  {path : List Block}

theorem Scoped.stands_at {P : Block → Prop} (h : Scoped p blocks s) (hf : BlockAt blocks f P) :
    ∃ x m b path, Stands p blocks s f x m (b :: path) ∧ P b := by
  obtain ⟨b, hb, hP⟩ := hf
  obtain ⟨x, m, path, hstands⟩ := h.stands f (h.lt_nextFrame hb)
  obtain ⟨b', path, ⟨hb', -⟩, -, rfl⟩ := List.forall₂_cons_left_iff.mp hstands.frames
  obtain rfl : b = b' := Option.some.inj (hb.symm.trans hb')
  exact ⟨x, m, b, path, hstands, hP⟩

theorem Stands.lookup?_eq_none (h : Stands p blocks s f x m path)
    (hy : ∀ b ∈ path, ¬b.Declares y) : s.scopes.lookup? f y = none := by
  rw [Scopes.lookup?_eq_none_iff]
  have hframes := h.frames
  clear h
  generalize s.scopes.chain f = frames at hframes
  induction hframes with
  | nil => exact List.forall_mem_nil _
  | cons hgb _ ih =>
    obtain ⟨hb, hpath⟩ := List.forall_mem_cons.mp hy
    have hnone := Option.not_isSome_iff_eq_none.mp fun hsome => hb (hgb.2 y hsome)
    exact List.forall_mem_cons.mpr ⟨hnone, ih hpath⟩

end References

/--
Lexical scoping of a run, `blocks` giving the blocks of the frames after every number of steps. A
frame keeps the block that it was opened for. A closure comes from a function statement directly in
the block of its frame, with the parameters and the body written there: native functions are
isolated (`Native`) and make none. Closures that are held anywhere have been made so, unless native
functions invent others. A variable or an assignment that is looked up stands in the block of its
frame, and when neither this block nor one around it declares the name, the name is not in scope.
-/
structure LexicallyScoped (p : Program) (host : Host) (blocks : Nat → List Block) : Prop where
  kept : ∀ n, blocks n <+: blocks (n + 1)
  frames : ∀ n c, p.Reaches host n c → (blocks n).length = c.state.nextFrame
  opened : ∀ n c, p.Reaches host n c → ∀ f b, (blocks n)[f]? = some b →
    (∀ k, n = k + 1 → (blocks k).length ≤ f) → Opens c f b
  closures : ∀ n c, p.Reaches host n c → ∀ (k : ClosureId) (closure : Closure),
    c.state.closures[k]? = some closure →
      ∃ x m b path, Stands p (blocks n) c.state closure.frame x m (b :: path) ∧
        ∃ y, .function y closure.routine ∈ b.body
  held : host.heap.All (·.ClosureBelow 0) →
    (∀ x native, p.natives.find? x = some native → native.InventsNoClosures) →
      ∀ n c, p.Reaches host n c →
        c.All fun v => ∀ k, v = .closure k → ∃ closure, c.state.closures[k]? = some closure
  references : ∀ n c, p.Reaches host n c → ∀ y f, c.control = .eval (.var y) f →
    ∃ x m b path, Stands p (blocks n) c.state f x m (b :: path) ∧ b.Evaluates (.var y) ∧
      ((∀ b' ∈ b :: path, ¬b'.Declares y) →
        Machine.step p c = .next ⟨.fault (.notInScope y), c.stack, c.state⟩)
  assignments : ∀ n c, p.Reaches host n c → ∀ v y f stack, c.control = .value v →
    c.stack = .assign y f :: stack →
      ∃ x m b path, Stands p (blocks n) c.state f x m (b :: path) ∧
        (∃ e, .assign y e ∈ b.body) ∧
        ((∀ b' ∈ b :: path, ¬b'.Declares y) →
          Machine.step p c = .next ⟨.fault (.notInScope y), stack, c.state⟩)

/-- Every run of every program is scoped lexically. -/
theorem lexical_scoping (p : Program) (host : Host) :
    ∃ blocks, LexicallyScoped p host blocks := by
  obtain ⟨blocks, hblocks⟩ := exists_blocksOf p host
  have hstate (n : Nat) (c : Config) (hc : p.Reaches host n c) : Scoped p (blocks n) c.state :=
    (hblocks.lexical n c hc).state
  refine ⟨blocks, hblocks.kept, fun n c hc => (hstate n c hc).size, hblocks.opened, ?_, ?_, ?_, ?_⟩
  · intro n c hc k closure hk
    exact (hstate n c hc).stands_at ((hstate n c hc).closures k closure hk)
  · intro hheap hnatives n c hc
    exact all_made hheap hnatives hc
  · intro n c hc y f hy
    have hfits : (Control.eval (.var y) f).Fits (blocks n) := hy ▸ (hblocks.lexical n c hc).control
    obtain ⟨x, m, b, path, hstands, hvar⟩ := (hstate n c hc).stands_at hfits
    refine ⟨x, m, b, path, hstands, hvar, fun hnone => ?_⟩
    obtain ⟨control, stack, s⟩ := c
    obtain rfl : control = _ := hy
    simp [Machine.step, Machine.evaluate, Machine.readVariable, Machine.deliver,
      hstands.lookup?_eq_none hnone]
  · intro n c hc v y f stack hv hstack
    have hfits : (Pending.assign y f).Fits (blocks n) :=
      (hblocks.lexical n c hc).stack _ (hstack ▸ List.mem_cons_self)
    obtain ⟨x, m, b, path, hstands, hassign⟩ := (hstate n c hc).stands_at hfits
    refine ⟨x, m, b, path, hstands, hassign, fun hnone => ?_⟩
    obtain ⟨control, stack', s⟩ := c
    obtain rfl : control = _ := hv
    obtain rfl : stack' = _ := hstack
    simp [Machine.step, Machine.resume, hstands.lookup?_eq_none hnone]

theorem standard_inventsNoClosures {x : Name} {native : Native}
    (h : Native.standard.find? x = some native) : native.InventsNoClosures :=
  fun _ => standard_keeps (fun _ hv => closureBelow_of_not_isCallable hv) h

/-- The clause `held` for runs with the standard native functions, with nothing assumed. -/
theorem all_made_standard {modules : List Module} {order : FieldOrder} {console : Console} {n : Nat}
    {c : Config} (h : Program.Reaches ⟨modules, Native.standard⟩ ⟨.empty order, console⟩ n c) :
    c.All fun v => ∀ k, v = .closure k → ∃ closure, c.state.closures[k]? = some closure :=
  all_made (Heap.all_empty order) (fun _ _ hx => standard_inventsNoClosures hx) h

end ModuleScript
