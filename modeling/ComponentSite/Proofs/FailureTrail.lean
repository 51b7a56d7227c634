/-
  ComponentSite.Proofs.FailureTrail — a failure spells the way of imports to its cause.

  Each importer on the way from the source that was asked for to the one at fault wraps the
  failure with its own key and the path as the import has it. These pairs are the trail of
  the failure (`SiteError.trail`), and the last of them leads to the source that the cause
  names (`Spells`).

  A compile fails in one of the ways of `Fails`, with one more source above on each level
  down. By induction on these ways the trail spells the imports (`Fails.spells`), its
  importers are all different and none of them was above (`Fails.apart`), and the cause is a
  cycle exactly if it names an importer or a source above (`Fails.isCycle_iff`). Above the
  source of a call there is nothing (`failure_spells_imports`).
-/
import ComponentSite.Proofs.CompileStack

namespace ComponentSite

namespace SiteError

/-- The importers that wrapped the failure, the outermost first, each with the path as
    written of the import that failed. -/
def trail : SiteError → List (Path × String)
  | importFailed importer raw cause => (importer, raw) :: cause.trail
  | _ => []

def importers (e : SiteError) : List Path := e.trail.map (·.1)

/-- The source that a failure to compile names. -/
def source? : SiteError → Option Path
  | sourceNotFound path _ => some path
  | malformedSource path _ => some path
  | cyclicImport path => some path
  | _ => none

def IsCycle (e : SiteError) : Prop := ∃ path, e = .cyclicImport path

@[simp] theorem trail_importFailed (importer : Path) (raw : String) (cause : SiteError) :
    (importFailed importer raw cause).trail = (importer, raw) :: cause.trail := rfl

@[simp] theorem importers_importFailed (importer : Path) (raw : String) (cause : SiteError) :
    (importFailed importer raw cause).importers = importer :: cause.importers := rfl

@[simp] theorem rootCause_importFailed (importer : Path) (raw : String) (cause : SiteError) :
    (importFailed importer raw cause).rootCause = cause.rootCause := rfl

end SiteError

namespace Compile

variable {files : FileTree} {options : CompileOptions}

/-- The trail leads from the source at `top` to the one at `last`: each importer is where
    the one before it leads, and has in its script the import that it stands with. -/
inductive Spells (files : FileTree) (options : CompileOptions) : Path → List (Path × String) → Path → Prop
  | here {key : Path} : Spells files options key [] key
  | onward {importer last : Path} {imports : List ImportReference} {i : ImportReference}
    {trail : List (Path × String)} :
      Scans files options importer imports → i ∈ imports →
        Spells files options (importer.resolveImport i.raw) trail last →
      Spells files options importer ((importer, i.raw) :: trail) last

/-- What cannot be taken names itself, and no import. -/
theorem source_of_readSource {isPage : Bool} {key : Path} {e : SiteError}
    (h : readSource files options isPage key = .error e) :
    e.rootCause.source? = some key ∧ e.trail = [] ∧ ¬ e.rootCause.IsCycle := by
  rcases readSource_eq_error h with ⟨cause, rfl, -⟩ | ⟨fault, rfl, -⟩
  · exact ⟨rfl, rfl, nofun⟩
  · exact ⟨rfl, rfl, nofun⟩

namespace Fails

variable {above : List Path} {isPage : Bool} {key : Path} {e : SiteError}

theorem spells (h : Fails files options above isPage key e) :
    ∃ last, e.rootCause.source? = some last ∧ Spells files options key e.trail last := by
  induction h with
  | cyclic => exact ⟨_, rfl, .here⟩
  | unfit _ hread =>
    obtain ⟨hsource, htrail, -⟩ := source_of_readSource hread
    exact ⟨_, hsource, htrail ▸ .here⟩
  | imported _ hread hi _ ih =>
    obtain ⟨last, hsource, hspells⟩ := ih
    exact ⟨last, hsource, .onward (scans_of_readSource hread).1 hi hspells⟩

theorem apart (h : Fails files options above isPage key e) : e.importers.Nodup ∧ ∀ a ∈ e.importers, a ∉ above := by
  induction h with
  | cyclic => exact ⟨List.nodup_nil, by simp [SiteError.importers, SiteError.trail]⟩
  | unfit _ hread =>
    have htrail := (source_of_readSource hread).2.1
    simp [SiteError.importers, htrail]
  | imported hnew _ _ _ ih =>
    obtain ⟨hnodup, hapart⟩ := ih
    rw [SiteError.importers_importFailed]
    refine ⟨List.nodup_cons.mpr ⟨fun hmem => hapart _ hmem List.mem_cons_self, hnodup⟩, ?_⟩
    refine List.forall_mem_cons.mpr ⟨hnew, fun a ha hmem => ?_⟩
    exact hapart a ha (List.mem_cons_of_mem _ hmem)

/-- The cause is a cycle exactly if it names an importer or a source above. -/
theorem isCycle_iff (h : Fails files options above isPage key e) {last : Path}
    (hlast : e.rootCause.source? = some last) :
    e.rootCause.IsCycle ↔ last ∈ e.importers ∨ last ∈ above := by
  induction h with
  | @cyclic above isPage key hmem =>
    cases hlast
    exact iff_of_true ⟨_, rfl⟩ (Or.inr hmem)
  | unfit hnew hread =>
    obtain ⟨hsource, htrail, hno⟩ := source_of_readSource hread
    cases hsource.symm.trans hlast
    refine iff_of_false hno ?_
    rintro (hmem | hmem)
    · simp [SiteError.importers, htrail] at hmem
    · exact hnew hmem
  | @imported above isPage key source i cause _ _ _ _ ih =>
    -- the source itself is above its import, and an importer of the failure
    have hmem : last ∈ (SiteError.importFailed key i.raw cause).importers ∨ last ∈ above ↔
        last ∈ cause.importers ∨ last ∈ key :: above := by
      rw [SiteError.importers_importFailed, List.mem_cons, List.mem_cons]
      exact (or_congr_left or_comm).trans or_assoc
    rw [hmem]
    exact ih hlast

end Fails

end Compile

namespace Compiler
open Compile ComponentGraph

/-- A call that fails, at any moment of a compiler, spells with its trail the imports that lead
    from the source of the call to the one that the cause names. The importers are different,
    and the cause is a cycle exactly if it names one of them. -/
theorem failure_spells_imports {options : CompileOptions} {c c' : Compiler} (hc : c.Reachable options) {call : Call}
    {e : SiteError} (h : c.Answers options call (.error e) c') :
    ∃ last, e.rootCause.source? = some last ∧ Spells call.files options call.path.normalize e.trail last ∧
      e.importers.Nodup ∧ (e.rootCause.IsCycle ↔ last ∈ e.importers) := by
  obtain ⟨calls, rfl⟩ := hc.exists_calls
  have hanswer : .error e = (call.answer options (after options calls)).1 := (h.unique (answers_of_idle rfl call)).1
  rw [Call.answer_eq] at hanswer
  have hfails := compileSource_fails maxDepth (room_start call.files) hanswer.symm
  obtain ⟨last, hsource, hspells⟩ := hfails.spells
  refine ⟨last, hsource, hspells, hfails.apart.1, ?_⟩
  simpa using hfails.isCycle_iff hsource

/-- A page two of whose imports import each other, after a call that left a third one in the
    graph. -/
theorem failure_of_looping_imports :
    let files : FileTree := { entries := [
      (["blog"], .folder none),
      (["blog", "p.goo"], .file
        (some "<script>import C from '../c.goo'\nimport A from '../a.goo'</script><component/>") 1),
      (["a.goo"], .file (some "<script>import B from './blog/../b.goo'</script>") 1),
      (["b.goo"], .file (some "<script>import A from 'a.goo'</script>") 1),
      (["c.goo"], .file (some "<component>c</component>") 1)] }
    let options : CompileOptions := { classOf := fun p => p.text }
    let c : Compiler := ⟨after options [⟨files, false, ⟨"c.goo"⟩, "C"⟩], []⟩
    let call : Call := ⟨files, false, ⟨"./blog//p.goo"⟩, "Page"⟩
    let trail : List (Path × String) :=
      [(⟨"blog/p.goo"⟩, "../a.goo"), (⟨"a.goo"⟩, "./blog/../b.goo"), (⟨"b.goo"⟩, "a.goo")]
    ∃ e c', c.Reachable options ∧ c.Answers options call (.error e) c' ∧ e.trail = trail ∧
      e.rootCause = .cyclicImport ⟨"a.goo"⟩ ∧
      Spells files options call.path.normalize trail ⟨"a.goo"⟩ ∧ e.importers.Nodup ∧
      (e.rootCause.IsCycle ↔ ⟨"a.goo"⟩ ∈ e.importers) := by
  intro files options c call trail
  let e : SiteError := .importFailed ⟨"blog/p.goo"⟩ "../a.goo"
    (.importFailed ⟨"a.goo"⟩ "./blog/../b.goo" (.importFailed ⟨"b.goo"⟩ "a.goo" (.cyclicImport ⟨"a.goo"⟩)))
  have hc : c.Reachable options := .call .new (answers_of_idle rfl _)
  have hanswer : (call.answer options c.graph).1 = .error e := by decide +kernel
  have h := hanswer ▸ answers_of_idle rfl call
  obtain ⟨last, hlast, hspells, hnodup, hiff⟩ := failure_spells_imports hc h
  cases hlast
  exact ⟨e, _, hc, h, rfl, rfl, hspells, hnodup, hiff⟩

end Compiler

end ComponentSite
