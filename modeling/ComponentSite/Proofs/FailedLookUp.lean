/-
  ComponentSite.Proofs.FailedLookUp — what a look-up that fails leaves of the page.

  What came of an event says what is kept of a page after it (`Outcome.leaves`); what is
  kept stays, as long as every outcome leaves it so (`Moment.entry?_after`). A look-up that
  fails has run the compiler of its caller, and leaves everything as it was but the count of
  misses (`Moment.next_failed`).

  There are two moments at which that compiler runs. Where nothing is kept of the page,
  nothing is kept of it after the failure either, until one of its compiles succeeds
  (`Vacant`). Where an entry is kept whose sources have changed, the failure does not take
  it away: it is still given out by `get?` and still counted, until it is replaced or
  forgotten (`failed_lookUp_leaves`).
-/
import ComponentSite.Proofs.CacheHistory

namespace ComponentSite.PageCache

/-! ## What an event leaves of a page -/

namespace Outcome

def fills (page : Path) : Outcome → Bool
  | compiled named _ => named.same page
  | _ => false

variable {page : Path} {o : Outcome}

theorem leaves_of_replaces (h : o.replaces page = false) (kept : Option CacheEntry) : o.leaves page kept = kept := by
  cases o with
  | compiled named e => exact if_neg (ne_true_of_eq_false h)
  | invalidated named => exact if_neg (ne_true_of_eq_false h)
  | cleared => cases h
  | hit | failed | nothing => rfl

theorem leaves_none_of_fills (h : o.fills page = false) : o.leaves page none = none := by
  cases o with
  | compiled named e => exact if_neg (ne_true_of_eq_false h)
  | invalidated named => exact ite_self none
  | cleared | hit | failed | nothing => rfl

end Outcome

namespace Moment

variable {m : Moment} {page : Path} {compile : Unit → Except SiteError CacheEntry} {cause : SiteError}

theorem entry?_next {kept : Option CacheEntry} (e : Event) (hm : m.cache.entry? page = kept) :
    PageCache.entry? (m.next e).cache page = (m.outcome e).leaves page kept := by
  rw [next_eq_apply, entry?_apply, hm]

/-- What is kept of the page stays so, as long as every outcome leaves it so. -/
theorem entry?_after {kept : Option CacheEntry} {m : Moment} (events : List Event) (hm : m.cache.entry? page = kept)
    (h : ∀ o ∈ m.history events, o.leaves page kept = kept) : PageCache.entry? (m.after events).cache page = kept := by
  induction events generalizing m with
  | nil => exact hm
  | cons e rest ih =>
    have hnext : PageCache.entry? (m.next e).cache page = kept :=
      (entry?_next e hm).trans (h _ List.mem_cons_self)
    exact ih hnext fun o ho => h o (List.mem_cons_of_mem _ ho)

/-- A look-up fails only where nothing that is kept could answer it, and only the count of
    misses is another one then. -/
theorem next_failed (h : (m.lookUp page compile).1.result = .error cause) :
    m.cache.current? m.files page = none ∧
      m.next (.lookUp page compile) = { m with cache := { m.cache with misses := m.cache.misses + 1 } } := by
  cases hc : m.cache.current? m.files page with
  | some kept =>
    rw [(hits_of_current? kept hc).2.answer] at h
    cases h
  | none =>
    have hcompile : (compile ()).map (·.page) = .error cause := (misses_of_current? hc).result compile ▸ h
    cases he : compile () with
    | ok e => rw [he] at hcompile; cases hcompile
    | error cause =>
      refine ⟨rfl, ?_⟩
      simp only [next, lookUp, getOrCompile_miss hc, he]

end Moment

/-! ## Pages of which nothing is kept -/

def others (c : PageCache) (page : Path) : Nat := c.entries.countP fun t => !t.1.same page

structure Vacant (c : PageCache) (page : Path) : Prop where
  get? : c.get? page = none
  size : c.size = c.others page

structure Holds (c : PageCache) (page : Path) (e : CacheEntry) : Prop where
  get? : c.get? page = some e.page
  size : c.size = c.others page + 1

variable {c : PageCache} {page : Path} {e : CacheEntry}

theorem size_eq : c.size = c.entries.countP (·.1.same page) + c.others page := by
  unfold size others
  rw [List.length_eq_countP_add_countP (·.1.same page)]
  simp only [Bool.not_eq_true, Bool.decide_eq_false]

theorem vacant_iff : c.Vacant page ↔ c.entry? page = none := by
  constructor
  · intro h
    exact Option.map_eq_none_iff.mp h.get?
  · intro h
    have hnone : c.entries.countP (·.1.same page) = 0 :=
      List.countP_eq_zero.mpr (List.find?_eq_none.mp (Option.map_eq_none_iff.mp h))
    refine ⟨congrArg _ h, ?_⟩
    rw [size_eq, hnone, Nat.zero_add]

theorem countP_same (hapart : (c.entries.map (·.1)).Pairwise fun p q => p.same q = false)
    (he : c.entry? page = some e) : c.entries.countP (·.1.same page) = 1 := by
  obtain ⟨k, hmem, hk⟩ := entry?_eq_some he
  obtain ⟨before, behind, hsplit⟩ := List.append_of_mem hmem
  rw [hsplit, List.map_append, List.map_cons, List.pairwise_append, List.pairwise_cons] at hapart
  obtain ⟨-, ⟨hbehind, -⟩, hbefore⟩ := hapart
  have hother : ∀ q : Path, q.segments ≠ k.segments → q.same page ≠ true := by
    intro q hq hsame
    exact hq ((Path.same_eq_true.mp hsame).trans (Path.same_eq_true.mp hk).symm)
  have h₁ : before.countP (·.1.same page) = 0 := by
    refine List.countP_eq_zero.mpr fun t ht => hother t.1 fun heq => ?_
    have := hbefore t.1 (List.mem_map_of_mem ht) k List.mem_cons_self
    rw [Path.same_eq_true.mpr heq] at this
    cases this
  have h₂ : behind.countP (·.1.same page) = 0 := by
    refine List.countP_eq_zero.mpr fun t ht => hother t.1 fun heq => ?_
    have := hbehind t.1 (List.mem_map_of_mem ht)
    rw [Path.same_eq_true.mpr heq.symm] at this
    cases this
  rw [hsplit, List.countP_append, List.countP_cons, if_pos hk, h₁, h₂]

theorem Refines.holds {history : List Outcome} (h : Refines c history) (he : c.entry? page = some e) :
    c.Holds page e := by
  refine ⟨congrArg _ he, ?_⟩
  rw [size_eq, countP_same h.apart he, Nat.add_comm]

/-! ## A look-up that fails -/

/-- After any events a look-up fails. From then on, until a compile of the page succeeds,
    nothing is kept of it: that is so exactly if nothing was kept of it at the failure, as it
    always is without checks. What was kept of it had changed sources. It is the page of the
    last compile that succeeded, and it stays until it is replaced or forgotten. -/
theorem failed_lookUp_leaves (invalidateOnChange : Bool) (files : FileTree) (events : List Event) (page : Path)
    (compile : Unit → Except SiteError CacheEntry) (cause : SiteError) :
    let start : Moment := ⟨{ invalidateOnChange }, files⟩
    let m := start.after events
    let history := start.history events
    let failed := m.next (.lookUp page compile)
    (m.lookUp page compile).1.result = .error cause →
      ((∀ later, (∀ o ∈ failed.history later, o.fills page = false) → (failed.after later).cache.Vacant page) ↔
        ∀ e, ¬ LastCompiled history page e) ∧
      (invalidateOnChange = false → ∀ e, ¬ LastCompiled history page e) ∧
      ∀ e, LastCompiled history page e → ¬ e.IsCurrent m.files ∧
        ∀ later, (∀ o ∈ failed.history later, o.replaces page = false) → (failed.after later).cache.Holds page e := by
  intro start m history failed hfail
  obtain ⟨hcurrent, hfailed⟩ := Moment.next_failed hfail
  have hrefines : Refines m.cache history := (refines_new invalidateOnChange).after (m := start) events
  -- a look-up that fails stores nothing, whatever was kept of the page
  have hkept : failed.cache.entry? page = m.cache.entry? page := by
    rw [show failed = _ from hfailed]
    rfl
  have hstale : ∀ e, LastCompiled history page e → invalidateOnChange = true ∧ ¬ e.IsCurrent m.files := by
    intro e he
    have hchecks : m.cache.invalidateOnChange = invalidateOnChange := checks_after start events
    rw [← hchecks]
    exact changed_of_current? e hcurrent ((hrefines.entry page e).mpr he)
  refine ⟨⟨?_, ?_⟩, ?_, ?_⟩
  · intro h e he
    have hvacant : failed.cache.entry? page = none := vacant_iff.mp (h [] (by simp [Moment.history]))
    rw [hkept, (hrefines.entry page e).mpr he] at hvacant
    cases hvacant
  · intro h later hlater
    have hnone : failed.cache.entry? page = none := by
      rw [hkept]
      exact Option.eq_none_iff_forall_ne_some.mpr fun e he => h e ((hrefines.entry page e).mp he)
    exact vacant_iff.mpr (Moment.entry?_after later hnone fun o ho => Outcome.leaves_none_of_fills (hlater o ho))
  · intro hoff e he
    have hon := (hstale e he).1
    rw [hoff] at hon
    cases hon
  · intro e he
    refine ⟨(hstale e he).2, fun later hlater => ?_⟩
    have hsome : failed.cache.entry? page = some e := hkept.trans ((hrefines.entry page e).mpr he)
    have hafter : Refines failed.cache (history ++ [m.outcome (.lookUp page compile)]) := hrefines.next _
    exact (hafter.after later).holds
      (Moment.entry?_after later hsome fun o ho => Outcome.leaves_of_replaces (hlater o ho) _)

/-- A page that did not compile the first time, and not the second time either. -/
theorem failed_lookUp_of_new_page :
    let page : Path := ⟨"page.goo"⟩
    let cause : SiteError := .malformedSource page .noMarkup
    let broken : Unit → Except SiteError CacheEntry := fun _ => .error cause
    let m : Moment := ⟨{ invalidateOnChange := true }, .empty⟩
    (m.lookUp page broken).1.result = .error cause ∧
      ∀ later, (∀ o ∈ (m.next (.lookUp page broken)).history later, o.fills page = false) →
        ((m.next (.lookUp page broken)).after later).cache.Vacant page := by
  intro page cause broken m
  have hfail : (m.lookUp page broken).1.result = .error cause := rfl
  exact ⟨hfail, (failed_lookUp_leaves true .empty [] page broken cause hfail).1.mpr fun e => not_lastCompiled_nil e⟩

/-- A page that compiled, then changed, and did not compile any more: the first page is
    still there, and counted. -/
theorem stale_entry_outlives_failure :
    let page : Path := ⟨"page.goo"⟩
    let files (time : Int) : FileTree := { entries := [(["page.goo"], .file (some "v1") time)] }
    let compile : Unit → Except SiteError CacheEntry := fun _ =>
      (CompiledPage.register page ⟨[("base", "hi")]⟩ "base").map (⟨·, [(page, some 1)]⟩)
    let broken : Unit → Except SiteError CacheEntry := fun _ => .error (.malformedSource page .noMarkup)
    let start : Moment := ⟨{ invalidateOnChange := true }, files 1⟩
    let m := start.after [.lookUp page compile, .change (files 2)]
    (m.lookUp page broken).1.result = .error (.malformedSource page .noMarkup) ∧
      ¬ (m.next (.lookUp page broken)).cache.Vacant page ∧
      ((m.next (.lookUp page broken)).cache.get? page).map CompiledPage.source = some "hi" ∧
      (m.next (.lookUp page broken)).cache.size = 1 := by
  intro page files compile broken start m
  have hfacts : (m.cache.current? m.files page).isNone ∧
      ((m.next (.lookUp page broken)).cache.get? page).map CompiledPage.source = some "hi" ∧
      (m.next (.lookUp page broken)).cache.size = 1 := by decide +kernel
  obtain ⟨hmiss, hget, hsize⟩ := hfacts
  refine ⟨(misses_of_current? (Option.isNone_iff_eq_none.mp hmiss)).result broken, fun h => ?_, hget, hsize⟩
  rw [h.get?] at hget
  cases hget

end ComponentSite.PageCache
