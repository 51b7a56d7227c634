/-
  ComponentSite.Proofs.AppendOnly — what a call leaves of the graph, and of the sources in
  progress.

  A component that is in the graph stays in its place, and nothing of it changes but that
  further names come behind its own (`Appended.kept`). What is new stands behind all that,
  as its file was read in the call, and everything that its imports lead to stands before
  it (`Whole`). This holds of calls that fail half-way too: a component is added in one
  step, after its imports, so none is there in part (`appended_of_run`). However a call
  ends, what was in progress before it is in progress again (`call_appends`).
-/
import ComponentSite.Proofs.CompileStack

namespace ComponentSite
open Compile

namespace ComponentGraph

structure Whole (options : CompileOptions) (files : FileTree) (g : ComponentGraph)
    (i : Nat) (c : Component) : Prop where
  read : files.read c.sourcePath = .ok (c.rawSource, c.modified)
  faithful : Faithful options g c
  closed : ∀ k, g.Reaches c.sourcePath k → ∃ j < i, g.keys[j]? = some k

structure Appended (options : CompileOptions) (files : FileTree) (g g' : ComponentGraph) : Prop where
  kept : ∀ (i : Nat) (c : Component), g.components[i]? = some c → ∃ more : List String,
    g'.components[i]? = some { c with aliases := c.aliases ++ more } ∧ more.Nodup ∧ ∀ n ∈ more, n ∉ c.names
  added : ∀ (i : Nat) (c : Component), g.size ≤ i → g'.components[i]? = some c →
    c.sourcePath ∉ g.keys ∧ Whole options files g' i c

variable {options : CompileOptions} {files : FileTree} {asked : Path → String → Prop} {g g' : ComponentGraph}

/-- Further names are new names. -/
theorem Grows.kept (h : g.Grows g') (hnames : ∀ c ∈ g'.components, c.names.Nodup) {i : Nat} {c : Component}
    (hc : g.components[i]? = some c) : ∃ more : List String,
      g'.components[i]? = some { c with aliases := c.aliases ++ more } ∧ more.Nodup ∧ ∀ n ∈ more, n ∉ c.names := by
  obtain ⟨f, new, hf, he⟩ := h
  have hi : g'.components[i]? = some (f c) := by
    have hlt : i < (g.components.map f).length := by
      rw [List.length_map]
      exact (List.getElem?_eq_some_iff.mp hc).1
    rw [he, List.getElem?_append_left hlt, List.getElem?_map, hc]
    rfl
  obtain ⟨more, hmore⟩ := hf c
  have hnodup : (c.names ++ more).Nodup := by
    have := hnames (f c) (List.mem_of_getElem? hi)
    rwa [hmore] at this
  obtain ⟨-, hnodup', hdisjoint⟩ := List.nodup_append.mp hnodup
  exact ⟨more, by rw [hi, hmore], hnodup', fun n hn hn' => hdisjoint n hn' n hn rfl⟩

theorem Grows.not_mem_keys (h : g.Grows g') (hg' : g'.Ordered) {i : Nat} {c : Component} (hi : g.size ≤ i)
    (hc : g'.components[i]? = some c) : c.sourcePath ∉ g.keys := by
  intro hmem
  obtain ⟨j, hj⟩ := List.getElem?_of_mem hmem
  have hlt : j < g.size := by simpa [keys, size] using (List.getElem?_eq_some_iff.mp hj).1
  obtain ⟨more, hkeys⟩ := h.keys_prefix
  have hj' : g'.keys[j]? = some c.sourcePath := by
    rw [← hkeys, List.getElem?_append_left (List.getElem?_eq_some_iff.mp hj).1, hj]
  have hi' : g'.keys[i]? = some c.sourcePath := by rw [keys, List.getElem?_map, hc]; rfl
  have := (List.getElem?_inj (List.getElem?_eq_some_iff.mp hj').1 hg'.nodup).mp (hj'.trans hi'.symm)
  omega

/-- What a run adds is as its file was read. -/
theorem read_of_run (hrun : Run files options asked g g') (hg' : g'.Ordered) :
    ∀ c ∈ g'.components, c.sourcePath ∈ g.keys ∨ files.read c.sourcePath = .ok (c.rawSource, c.modified) := by
  refine hrun.forall_components
    (P := fun c => c.sourcePath ∈ g.keys ∨ files.read c.sourcePath = .ok (c.rawSource, c.modified))
    ?_ ?_ (fun _ hk => hg'.isKey_of_mem hk) fun c hc => Or.inl (mem_keys.mpr ⟨c, hc, rfl⟩)
  · intro c name hc _
    obtain ⟨more, e⟩ := Component.Extends.bind c name
    rw [e]
    exact hc
  · intro g key name isPage source children _ hread
    exact Or.inr (readSource_ok hread).1

theorem appended_of_run (hrun : Run files options asked g g') (hg' : Reachable options g') :
    Appended options files g g' where
  kept _ _ hc := hrun.grows.kept hg'.names_nodup hc
  added i c hi hc := by
    have hordered := hg'.inv.1
    have hmem := List.mem_of_getElem? hc
    have hnew := hrun.grows.not_mem_keys hordered hi hc
    refine ⟨hnew, (read_of_run hrun hordered c hmem).resolve_left hnew, hg'.faithful c hmem, fun k hk => ?_⟩
    exact hordered.reaches_earlier hk (by rw [keys, List.getElem?_map, hc]; rfl)

end ComponentGraph

namespace Compiler
open ComponentGraph

variable {options : CompileOptions} {c : Compiler}

/-- However a call ends, the sources in progress are those from before it, and the graph is
    what it was, with new names and with whole components behind it. -/
theorem call_appends (hc : c.Reachable options) (call : Call) :
    ∃ answer c', c.Answers options call answer c' ∧ call.answer options c.graph = (answer, c'.graph) ∧
      c'.inProgress = c.inProgress ∧ Appended options call.files c.graph c'.graph := by
  obtain ⟨calls, rfl⟩ := hc.exists_calls
  have hreach := reachable_after options calls
  have hreach' := reachable_after options (calls ++ [call])
  have hrun := (compile_ran call.files options call.isPage call.path call.name hreach.inv.1).run
  rw [← Call.answer_eq] at hrun
  rw [after_concat] at hreach'
  exact ⟨_, _, answers_of_idle rfl call, rfl, rfl, appended_of_run hrun hreach'⟩

/-- A page whose last import fails, after its first two gave more names to a card that was
    compiled before its file was taken away. -/
theorem call_appends_before_failure :
    let earlier : FileTree := { entries := [(["card.goo"], .file (some "<component>card</component>") 1)] }
    let files : FileTree := { entries := [
      (["page.goo"], .file (some ("<script>import Tile from './card.goo'\nimport Badge from './badge.goo'\n" ++
        "import Gone from './gone.goo'</script><component></component>")) 2),
      (["badge.goo"], .file (some "<script>import Plate, Card from './card.goo'</script>") 2)] }
    let options : CompileOptions := { classOf := fun p => p.text }
    let c : Compiler := ⟨after options [⟨earlier, false, ⟨"card.goo"⟩, "Card"⟩], []⟩
    let call : Call := ⟨files, true, ⟨"page.goo"⟩, "Page"⟩
    ∃ answer c', c.Reachable options ∧ c.Answers options call answer c' ∧
      answer = .error (.importFailed ⟨"page.goo"⟩ "./gone.goo" (.sourceNotFound ⟨"gone.goo"⟩ .notFound)) ∧
      c'.graph.components.map (·.names) = [["Card", "Tile", "Plate"], ["Badge"]] ∧
      c'.inProgress = c.inProgress ∧ Appended options files c.graph c'.graph := by
  intro earlier files options c call
  have hc : c.Reachable options := .call .new (answers_of_idle rfl _)
  have hcomes : (call.answer options c.graph).1 =
      .error (.importFailed ⟨"page.goo"⟩ "./gone.goo" (.sourceNotFound ⟨"gone.goo"⟩ .notFound)) ∧
        (call.answer options c.graph).2.components.map (·.names) = [["Card", "Tile", "Plate"], ["Badge"]] := by
    decide +kernel
  obtain ⟨answer, c', hanswers, hanswer, hstack, happended⟩ := call_appends hc call
  rw [hanswer] at hcomes
  exact ⟨answer, c', hc, hanswers, hcomes.1, hcomes.2, hstack, happended⟩

end Compiler

end ComponentSite
