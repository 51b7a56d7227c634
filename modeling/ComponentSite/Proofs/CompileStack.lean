/-
  ComponentSite.Proofs.CompileStack — compiling step by step, with the sources in
  progress.

  A call of a compiler is taken apart into the changes of its state (`Moves`). A source is
  in progress from the moment it was read until it is added to the graph or fails; the
  keys of these sources are on a stack, which a compiler keeps from one call to the next
  (`Compiler`). Every call comes to an end, and to the answer of the recursion
  (`answers_source`).

  What every step keeps (`Machine.Sound`): the sources in progress are those that wait for
  an import and the one at hand, all different, readable, and none of them in the graph;
  what the call has read is in progress or in the graph, unless a failure is being handed
  up. So nothing is read twice, and no more calls are open than there are readable files,
  and one (`call_terminates`).
-/
import ComponentSite.Proofs.CompileOutcome
import ComponentSite.Proofs.NameOrigins
import Mathlib.Data.Set.Card

namespace ComponentSite

namespace Compile

/-! ## The state of a call -/

structure Opened where
  key : Path
  name : String
  source : ReadSource
  children : List Path

/-- A source that waits for one of its imports, with the imports after that one. -/
structure Frame where
  opened : Opened
  awaited : ImportReference
  pending : List ImportReference

inductive Task
  | source (isPage : Bool) (path : Path) (name : String)
  | imports (here : Opened) (pending : List ImportReference)
  | answer (result : Except SiteError Path)

structure Machine where
  task : Task
  /-- The sources that wait, the innermost first. -/
  frames : List Frame
  inProgress : List Path
  graph : ComponentGraph
  /-- The keys that the call has read, the last first. -/
  reads : List Path

def Opened.adopt (here : Opened) (child : Path) : Opened :=
  { here with children := if here.children.contains child then here.children else here.children ++ [child] }

/-- One step of a compiler. -/
inductive Moves (files : FileTree) (options : CompileOptions) (m : Machine) : Machine → Prop
  | known {isPage : Bool} {path : Path} {name : String} : m.task = .source isPage path name →
      m.graph.contains path.normalize = true →
      Moves files options m
        { m with task := .answer (.ok path.normalize), graph := m.graph.bind path.normalize name }
  | cycle {isPage : Bool} {path : Path} {name : String} : m.task = .source isPage path name →
      m.graph.contains path.normalize = false → m.inProgress.any (·.same path.normalize) = true →
      Moves files options m { m with task := .answer (.error (.cyclicImport path.normalize)) }
  | unfit {isPage : Bool} {path : Path} {name : String} {e : SiteError} : m.task = .source isPage path name →
      m.graph.contains path.normalize = false → m.inProgress.any (·.same path.normalize) = false →
      readSource files options isPage path.normalize = .error e →
      Moves files options m { m with task := .answer (.error e), reads := path.normalize :: m.reads }
  | opened {isPage : Bool} {path : Path} {name : String} {source : ReadSource} :
      m.task = .source isPage path name → m.graph.contains path.normalize = false →
      m.inProgress.any (·.same path.normalize) = false →
      readSource files options isPage path.normalize = .ok source →
      Moves files options m
        { m with
          task := .imports ⟨path.normalize, name, source, []⟩ source.scanned.imports
          inProgress := path.normalize :: m.inProgress
          reads := path.normalize :: m.reads }
  | descend {here : Opened} {i : ImportReference} {pending : List ImportReference} :
      m.task = .imports here (i :: pending) →
      Moves files options m
        { m with
          task := .source false (here.key.resolveImport i.raw) i.displayName
          frames := ⟨here, i, pending⟩ :: m.frames }
  | finished {here : Opened} : m.task = .imports here [] →
      Moves files options m
        { m with
          task := .answer (.ok here.key)
          inProgress := m.inProgress.tail
          graph := m.graph.add (finish options m.graph here.key here.name here.source here.children) }
  | resumed {child : Path} {here : Opened} {i : ImportReference} {pending : List ImportReference}
      {frames : List Frame} : m.task = .answer (.ok child) → m.frames = ⟨here, i, pending⟩ :: frames →
      Moves files options m { m with task := .imports (here.adopt child) pending, frames }
  | failed {e : SiteError} {here : Opened} {i : ImportReference} {pending : List ImportReference}
      {frames : List Frame} : m.task = .answer (.error e) → m.frames = ⟨here, i, pending⟩ :: frames →
      Moves files options m
        { m with
          task := .answer (.error (.importFailed here.key i.raw e))
          frames
          inProgress := m.inProgress.tail }

abbrev MovesOn (files : FileTree) (options : CompileOptions) : Machine → Machine → Prop :=
  Relation.ReflTransGen (Moves files options)

variable {files : FileTree} {options : CompileOptions}

/-- There is one way to go on. -/
theorem Moves.unique {m m₁ m₂ : Machine} (h₁ : Moves files options m m₁) (h₂ : Moves files options m m₂) : m₁ = m₂ := by
  cases h₁ <;> cases h₂ <;> simp_all <;> grind

/-- An answer that no source waits for is the end. -/
theorem not_moves_of_answer {m m' : Machine} {result : Except SiteError Path} (htask : m.task = .answer result)
    (hframes : m.frames = []) : ¬ Moves files options m m' := by
  intro h
  cases h <;> simp_all

/-! ## Steps and the recursion -/

/-- The steps of this task come to the outcome, with all that was in progress before. -/
def Answers (files : FileTree) (options : CompileOptions) (task : Task) (above before : List Path) (g : ComponentGraph)
    (outcome : Except SiteError Path × ComponentGraph) : Prop :=
  ∀ (frames : List Frame) (reads : List Path), ∃ reads',
    MovesOn files options ⟨task, frames, above, g, reads⟩ ⟨.answer outcome.1, frames, before, outcome.2, reads'⟩

theorem answers_imports {above : List Path} (here : Opened)
    {compile : Path → String → ComponentGraph → Except SiteError Path × ComponentGraph}
    (hc : ∀ (path : Path) (name : String) (g : ComponentGraph),
      Answers files options (.source false path name) (here.key :: above) (here.key :: above) g (compile path name g))
    (pending : List ImportReference) (g : ComponentGraph) :
    Answers files options (.imports here pending) (here.key :: above) above g
      (match compileImports compile here.key pending here.children g with
        | (.error e, g) => (.error e, g)
        | (.ok children, g) => (.ok here.key, g.add (finish options g here.key here.name here.source children))) := by
  intro frames reads
  induction pending generalizing here g reads with
  | nil =>
    simp only [compileImports]
    exact ⟨reads, .single (.finished rfl)⟩
  | cons i pending ih =>
    have hdown : Moves files options ⟨.imports here (i :: pending), frames, here.key :: above, g, reads⟩
        ⟨.source false (here.key.resolveImport i.raw) i.displayName, ⟨here, i, pending⟩ :: frames, here.key :: above, g,
          reads⟩ := .descend rfl
    obtain ⟨reads₁, hbelow⟩ := hc (here.key.resolveImport i.raw) i.displayName g (⟨here, i, pending⟩ :: frames) reads
    rw [compileImports]
    rcases hr : compile (here.key.resolveImport i.raw) i.displayName g with ⟨result, g₁⟩
    rw [hr] at hbelow
    cases result with
    | error e =>
      dsimp only at hbelow ⊢
      exact ⟨reads₁, .head hdown (hbelow.tail (.failed rfl rfl))⟩
    | ok child =>
      obtain ⟨reads₂, hrest⟩ := ih (here.adopt child) hc g₁ reads₁
      exact ⟨reads₂, .head hdown (hbelow.trans (.head (.resumed rfl rfl) hrest))⟩

/-- The steps of a source come to what the recursion comes to. -/
theorem answers_source (depth : Nat) {above : List Path} (hroom : Room files above depth) (isPage : Bool) (path : Path)
    (name : String) (g : ComponentGraph) :
    Answers files options (.source isPage path name) above above g
      (compileSource files options depth above isPage path name g) := by
  induction depth generalizing above isPage path name g with
  | zero => exact absurd hroom Room.not_zero
  | succ depth ih =>
    intro frames reads
    rw [compileSource_succ]
    split
    · rename_i hin
      exact ⟨reads, .single (.known rfl hin)⟩
    · rename_i hout
      rw [Bool.not_eq_true] at hout
      split
      · rename_i hcycle
        exact ⟨reads, .single (.cycle rfl hout hcycle)⟩
      · rename_i hnot
        rw [Bool.not_eq_true] at hnot
        split
        · rename_i e hread
          exact ⟨_, .single (.unfit rfl hout hnot hread)⟩
        · rename_i source hread
          have hroom' := hroom.down (Path.isKey_normalize path) (not_mem_of_any_same hnot) (readSource_ok hread).1
          obtain ⟨reads', himports⟩ := answers_imports ⟨path.normalize, name, source, []⟩
            (ih hroom' false) source.scanned.imports g frames (path.normalize :: reads)
          exact ⟨reads', .head (.opened rfl hout hnot hread) himports⟩

/-! ## What every step keeps -/

def Task.opened : Task → List Opened
  | .imports here _ => [here]
  | _ => []

/-- The sources that were read and are not finished, the innermost first. -/
def Machine.opened (m : Machine) : List Opened := m.task.opened ++ m.frames.map (·.opened)

def Machine.Failing (m : Machine) : Prop := ∃ e, m.task = .answer (.error e)

/-- How many calls of the recursion are open. -/
def Machine.depth (m : Machine) : Nat :=
  match m.task with
  | .answer _ => m.frames.length
  | _ => m.frames.length + 1

def Readable (files : FileTree) (k : Path) : Prop := k.IsKey ∧ ∃ found, files.read k = .ok found

theorem finite_readable (files : FileTree) : {k | Readable files k}.Finite := by
  have hcodes := Set.finite_lt_nat (256 ^ (FileTree.maxPathBytes + 1))
  refine Set.Finite.of_finite_image (f := fun k : Path => byteCode k.text) (hcodes.subset ?_) ?_
  · rintro _ ⟨k, ⟨_, found, hread⟩, rfl⟩
    refine (byteCode_lt k.text).trans_le (Nat.pow_le_pow_right (by decide) ?_)
    exact Nat.succ_le_succ (FileTree.short_of_read hread)
  · exact fun k _ l _ e => congrArg Path.mk (byteCode_injective e)

structure Machine.Sound (files : FileTree) (m : Machine) : Prop where
  stack : m.inProgress = m.opened.map (·.key)
  nodup : m.inProgress.Nodup
  readable : ∀ k ∈ m.inProgress, Readable files k
  apart : ∀ k ∈ m.inProgress, k ∉ m.graph.keys
  reads_nodup : m.reads.Nodup
  /-- After a failure there is nothing more to read. -/
  kept : m.Failing ∨ ∀ k ∈ m.reads, k ∈ m.graph.keys ∨ k ∈ m.inProgress

structure Machine.Bounded (files : FileTree) (m : Machine) : Prop where
  nodup : m.inProgress.Nodup
  inProgress : ∀ k ∈ m.inProgress, Readable files k ∧ k ∉ m.graph.keys
  depth : m.depth ≤ {k | Readable files k}.ncard + 1
  /-- No source was read twice. -/
  reads : m.reads.Nodup

theorem not_mem_keys_of_contains {g : ComponentGraph} {key : Path} (h : g.contains key = false) : key ∉ g.keys := by
  intro hmem
  obtain ⟨c, hc, rfl⟩ := ComponentGraph.mem_keys.mp hmem
  rw [ComponentGraph.contains, ComponentGraph.get?, Option.isSome_eq_false_iff, Option.isNone_iff_eq_none,
    List.find?_eq_none] at h
  exact h c hc (Path.same_refl c.sourcePath)

namespace Machine.Sound

variable {m : Machine} (h : m.Sound files)
include h

theorem not_mem_reads {isPage : Bool} {path : Path} {name : String} (htask : m.task = .source isPage path name)
    (hout : m.graph.contains path.normalize = false) (hnot : m.inProgress.any (·.same path.normalize) = false) :
    path.normalize ∉ m.reads := by
  intro hmem
  rcases h.kept with ⟨e, he⟩ | hkept
  · cases htask.symm.trans he
  · rcases hkept _ hmem with hk | hk
    · exact not_mem_keys_of_contains hout hk
    · exact not_mem_of_any_same hnot hk

theorem kept_of_task (hm : ¬ m.Failing) : ∀ k ∈ m.reads, k ∈ m.graph.keys ∨ k ∈ m.inProgress := h.kept.resolve_left hm

theorem stack_moves {m' : Machine} (hm : Moves files options m m') : m'.inProgress = m'.opened.map (·.key) := by
  have hstack := h.stack
  cases hm <;> simp_all [opened, Task.opened, Opened.adopt]

/-- A step keeps what is in progress, takes the innermost source off or puts one on that
    was read just now. -/
theorem moves {m' : Machine} (hm : Moves files options m m') : m'.Sound files := by
  have hstack := h.stack_moves hm
  cases hm with
  | known htask hin =>
    have hkept := h.kept_of_task (by simp [Failing, htask])
    exact ⟨hstack, h.nodup, h.readable, by simpa using h.apart, h.reads_nodup, Or.inr (by simpa using hkept)⟩
  | cycle htask hout hcycle =>
    exact ⟨hstack, h.nodup, h.readable, h.apart, h.reads_nodup, Or.inl ⟨_, rfl⟩⟩
  | unfit htask hout hnot hread =>
    have hreads := List.nodup_cons.mpr ⟨h.not_mem_reads htask hout hnot, h.reads_nodup⟩
    exact ⟨hstack, h.nodup, h.readable, h.apart, hreads, Or.inl ⟨_, rfl⟩⟩
  | @opened isPage path name source htask hout hnot hread =>
    have hkept := h.kept_of_task (by simp [Failing, htask])
    -- every source read so far is in progress or in the graph, and this one is in neither
    have hreads := List.nodup_cons.mpr ⟨h.not_mem_reads htask hout hnot, h.reads_nodup⟩
    have hreadable : Readable files path.normalize := ⟨Path.isKey_normalize path, _, (readSource_ok hread).1⟩
    have hnodup := List.nodup_cons.mpr ⟨not_mem_of_any_same hnot, h.nodup⟩
    refine ⟨hstack, hnodup, List.forall_mem_cons.mpr ⟨hreadable, h.readable⟩,
      List.forall_mem_cons.mpr ⟨not_mem_keys_of_contains hout, h.apart⟩, hreads, Or.inr ?_⟩
    refine List.forall_mem_cons.mpr ⟨Or.inr List.mem_cons_self, fun k hk => ?_⟩
    exact (hkept k hk).imp_right (List.mem_cons_of_mem _)
  | descend htask =>
    have hkept := h.kept_of_task (by simp [Failing, htask])
    exact ⟨hstack, h.nodup, h.readable, h.apart, h.reads_nodup, Or.inr hkept⟩
  | @finished here htask =>
    have hkept := h.kept_of_task (by simp [Failing, htask])
    have hcons : m.inProgress = here.key :: m.inProgress.tail := by
      rw [h.stack]
      simp [Machine.opened, Task.opened, htask]
    have hnodup := List.nodup_cons.mp (hcons ▸ h.nodup)
    have hrest : ∀ k ∈ m.inProgress.tail, k ∈ m.inProgress := fun k => List.mem_of_mem_tail
    refine ⟨hstack, hnodup.2, fun k hk => h.readable k (hrest k hk), fun k hk => ?_,
      h.reads_nodup, Or.inr fun k hk => ?_⟩
    -- the source goes from the stack into the graph, and the others on the stack are different ones
    · simp only [ComponentGraph.keys_add, finish_sourcePath, List.mem_append, List.mem_singleton, not_or]
      exact ⟨h.apart k (hrest k hk), fun e => hnodup.1 (e ▸ hk)⟩
    · simp only [ComponentGraph.keys_add, finish_sourcePath, List.mem_append, List.mem_singleton]
      rcases hkept k hk with hk | hk
      · exact Or.inl (Or.inl hk)
      · rcases List.mem_cons.mp (hcons ▸ hk) with rfl | hk
        · exact Or.inl (Or.inr rfl)
        · exact Or.inr hk
  | resumed htask hframes =>
    have hkept := h.kept_of_task (by simp [Failing, htask])
    exact ⟨hstack, h.nodup, h.readable, h.apart, h.reads_nodup, Or.inr hkept⟩
  | failed htask hframes =>
    have hrest : ∀ k ∈ m.inProgress.tail, k ∈ m.inProgress := fun k => List.mem_of_mem_tail
    exact ⟨hstack, h.nodup.tail, fun k hk => h.readable k (hrest k hk), fun k hk => h.apart k (hrest k hk),
      h.reads_nodup, Or.inl ⟨_, rfl⟩⟩

theorem movesOn {m' : Machine} (hm : MovesOn files options m m') : m'.Sound files := by
  induction hm with
  | refl => exact h
  | tail _ hm ih => exact ih.moves hm

theorem depth_le : m.depth ≤ {k | Readable files k}.ncard + 1 := by
  have hframes : m.frames.length ≤ m.inProgress.length := by
    rw [h.stack, List.length_map, opened, List.length_append, List.length_map]
    omega
  have hsubset : (m.inProgress.toFinset : Set Path) ⊆ {k | Readable files k} := fun k hk =>
    h.readable k (List.mem_toFinset.mp hk)
  have hcard := Set.ncard_le_ncard hsubset (finite_readable files)
  rw [Set.ncard_coe_finset, List.toFinset_card_of_nodup h.nodup] at hcard
  unfold depth
  split <;> omega

end Machine.Sound

/-! ## The end of a call -/

theorem MovesOn.unique {m last last' : Machine} (h : MovesOn files options m last) (h' : MovesOn files options m last')
    (hlast : ∀ n, ¬ Moves files options last n) (hlast' : ∀ n, ¬ Moves files options last' n) : last = last' := by
  have stays : ∀ {n n' : Machine}, (∀ k, ¬ Moves files options n k) → MovesOn files options n n' → n = n' := by
    intro n n' hn hmoves
    rcases Relation.ReflTransGen.cases_head hmoves with e | ⟨k, hk, _⟩
    · exact e
    · exact absurd hk (hn k)
  have hright : Relator.RightUnique (Moves files options) := fun _ _ _ => Moves.unique
  rcases Relation.ReflTransGen.total_of_right_unique hright h h' with h | h
  · exact stays hlast h
  · exact (stays hlast' h).symm

/-- What comes to an end does not go on without end. -/
theorem acc_of_movesOn {m last : Machine} (h : MovesOn files options m last)
    (hlast : ∀ n, ¬ Moves files options last n) :
    Acc (fun n m => Moves files options m n) m := by
  induction h using Relation.ReflTransGen.head_induction_on with
  | refl => exact ⟨_, fun n hn => absurd hn (hlast n)⟩
  | head hmove _ ih => exact ⟨_, fun n hn => hmove.unique hn ▸ ih⟩

end Compile

/-! ## Calls of a compiler -/

@[ext]
structure Compiler where
  graph : ComponentGraph
  inProgress : List Path

namespace Compiler
open Compile ComponentGraph

def new : Compiler := ⟨.empty, []⟩

def start (c : Compiler) (call : Call) : Machine :=
  ⟨.source call.isPage call.path call.name, [], c.inProgress, c.graph, []⟩

/-- The call comes to an end with this answer, and leaves the compiler as `c'`. -/
def Answers (options : CompileOptions) (c : Compiler) (call : Call) (answer : Except SiteError Path) (c' : Compiler) :
    Prop :=
  ∃ reads, MovesOn call.files options (c.start call) ⟨.answer answer, [], c'.inProgress, c'.graph, reads⟩

/-- The compilers that any calls, each with the files of its moment, can lead to. -/
inductive Reachable (options : CompileOptions) : Compiler → Prop
  | new : Reachable options new
  | call {c c' : Compiler} {call : Call} {answer : Except SiteError Path} : Reachable options c →
      c.Answers options call answer c' → Reachable options c'

variable {options : CompileOptions} {c : Compiler}

/-- A call that begins with nothing in progress comes to the answer of the recursion, with
    nothing in progress. -/
theorem answers_of_idle (hc : c.inProgress = []) (call : Call) :
    c.Answers options call (call.answer options c.graph).1 ⟨(call.answer options c.graph).2, []⟩ := by
  rw [Call.answer_eq]
  obtain ⟨reads, hmoves⟩ :=
    answers_source maxDepth (room_start call.files) call.isPage call.path call.name c.graph [] []
  refine ⟨reads, ?_⟩
  rw [start, hc]
  exact hmoves

theorem Answers.unique {call : Call} {answer answer' : Except SiteError Path} {c' c'' : Compiler}
    (h : c.Answers options call answer c') (h' : c.Answers options call answer' c'') : answer = answer' ∧ c' = c'' := by
  obtain ⟨reads, h⟩ := h
  obtain ⟨reads', h'⟩ := h'
  have hend := MovesOn.unique h h' (fun _ => not_moves_of_answer rfl rfl) (fun _ => not_moves_of_answer rfl rfl)
  rw [Machine.mk.injEq, Task.answer.injEq] at hend
  obtain ⟨hanswer, -, hstack, hgraph, -⟩ := hend
  exact ⟨hanswer, Compiler.ext hgraph hstack⟩

/-- Between two calls nothing is in progress, and the graph is what the calls made it. -/
theorem Reachable.exists_calls (h : c.Reachable options) : ∃ calls, c = ⟨after options calls, []⟩ := by
  induction h with
  | new => exact ⟨[], rfl⟩
  | @call c c' call answer _ hanswers ih =>
    obtain ⟨calls, rfl⟩ := ih
    obtain ⟨-, rfl⟩ := hanswers.unique (answers_of_idle rfl call)
    exact ⟨calls ++ [call], by rw [after_concat]⟩

theorem sound_start (hc : c.inProgress = []) (call : Call) : (c.start call).Sound call.files := by
  rw [start, hc]
  exact ⟨rfl, List.nodup_nil, by simp, by simp, List.nodup_nil, Or.inr (by simp)⟩

/-- Every call comes to an end. At every moment the sources in progress are different keys
    of files that can be read, none of them is in the graph, the calls that are open are at
    most one more than such keys, and no source was read twice. -/
theorem call_terminates (hc : c.Reachable options) (call : Call) :
    (∃ answer g, call.answer options c.graph = (answer, g) ∧ c.Answers options call answer ⟨g, c.inProgress⟩) ∧
      Acc (fun n m => Moves call.files options m n) (c.start call) ∧
      {k | Readable call.files k}.Finite ∧
      ∀ m, MovesOn call.files options (c.start call) m → m.Bounded call.files := by
  obtain ⟨calls, rfl⟩ := hc.exists_calls
  have hanswers : Answers options ⟨after options calls, []⟩ call _ _ := answers_of_idle rfl call
  refine ⟨⟨_, _, rfl, hanswers⟩, ?_, finite_readable call.files, fun m hm => ?_⟩
  · obtain ⟨reads, hmoves⟩ := hanswers
    exact acc_of_movesOn hmoves fun _ => not_moves_of_answer rfl rfl
  · have h := (sound_start rfl call).movesOn hm
    exact ⟨h.nodup, fun k hk => ⟨h.readable k hk, h.apart k hk⟩, h.depth_le, h.reads_nodup⟩

/-- A page whose imports lead back to one of them, after a call for another of its imports. -/
theorem call_of_circular_imports :
    let files : FileTree := { entries := [
      (["p.goo"], .file
        (some "<script>import C from './c.goo'\nimport A from './a.goo'</script><component></component>") 1),
      (["a.goo"], .file (some "<script>import B from './x/../b.goo'\nimport C from './c.goo'</script>") 1),
      (["b.goo"], .file (some "<script>import A from '././a.goo'</script>") 1),
      (["c.goo"], .file (some "<component>c</component>") 1)] }
    let options : CompileOptions := { classOf := fun p => p.text }
    let c : Compiler := ⟨after options [⟨files, false, ⟨"c.goo"⟩, "C"⟩], []⟩
    let call : Call := ⟨files, true, ⟨"p.goo"⟩, "Page"⟩
    c.Reachable options ∧ (call.answer options c.graph).1 = .error (.importFailed ⟨"p.goo"⟩ "./a.goo"
        (.importFailed ⟨"a.goo"⟩ "./x/../b.goo" (.importFailed ⟨"b.goo"⟩ "././a.goo" (.cyclicImport ⟨"a.goo"⟩)))) ∧
      Acc (fun n m => Moves files options m n) (c.start call) ∧
      ∀ m, MovesOn files options (c.start call) m → m.Bounded files := by
  intro files options c call
  have hc : c.Reachable options := .call .new (answers_of_idle rfl _)
  obtain ⟨-, hacc, -, hbounded⟩ := call_terminates hc call
  exact ⟨hc, by decide +kernel, hacc, hbounded⟩

end Compiler

end ComponentSite
