/-
  ComponentSite.Proofs.CacheHistory — what a cache answers, told by what happened before.

  A cache lives through look-ups, reads, invalidations and clearings, while the files
  change in between (`Event`). Each of these comes to something (`Outcome`): a look-up is
  a hit, or it runs the compiler of its caller, which gives an entry or fails.

  At every moment the cache is the map from a page to the entry of its last compile that
  succeeded, unless the page was invalidated or the cache cleared since
  (`LastCompiled`), and its counters count the hits and the runs of the compiler
  (`Refines`). What comes of an event says what it does to the cache (`Outcome.apply`,
  `Moment.next_eq_apply`). One outcome keeps the cache in step (`Refines.apply`), so every
  run does. What the next look-up comes to follows: it is a hit on the last compile, with
  all its sources as recorded if the cache checks them, or a miss, and only a miss runs the
  compiler (`lookUps_refine_map`).
-/
import ComponentSite.Proofs.CacheCoherence

namespace ComponentSite

theorem Path.same_eq_true {p q : Path} : p.same q = true ↔ p.segments = q.segments := beq_iff_eq

/-- Every source can be read now and has the time recorded. -/
def CacheEntry.IsCurrent (files : FileTree) (e : CacheEntry) : Prop :=
  ∀ source recorded, (source, recorded) ∈ e.sources → ∃ time, files.modified? source = some time ∧ recorded = some time

theorem CacheEntry.isStale_eq_false {files : FileTree} {e : CacheEntry} :
    e.isStale files = false ↔ e.IsCurrent files := by
  unfold isStale IsCurrent
  rw [List.any_eq_false]
  constructor
  · intro h source recorded hmem
    have := h (source, recorded) hmem
    cases hm : files.modified? source with
    | none => simp [hm] at this
    | some time => exact ⟨time, rfl, by simpa [hm] using this⟩
  · rintro h ⟨source, recorded⟩ hmem
    obtain ⟨time, hm, rfl⟩ := h source recorded hmem
    simp [hm]

namespace PageCache

/-! ## What a cache holds after a change -/

variable (c : PageCache) (page other : Path) (e : CacheEntry)

theorem find?_without :
    (c.entries.filter (!·.1.same page)).find? (·.1.same other) =
      if page.same other then none else c.entries.find? (·.1.same other) := by
  rw [List.find?_filter]
  split
  · rename_i h
    refine List.find?_eq_none.mpr fun t _ ht => ?_
    simp only [Bool.not_eq_true', decide_eq_true_eq, Path.same_eq_true] at ht h
    exact absurd (Path.same_eq_true.mpr (ht.2.trans h.symm)) (by simp [ht.1])
  · rename_i h
    congr 1
    funext t
    by_cases ht : t.1.same other = true
    · have : t.1.same page = false := by
        rw [Bool.eq_false_iff]
        intro hp
        rw [Path.same_eq_true] at ht hp h
        exact h (hp.symm.trans ht)
      simp [ht, this]
    · simp [ht]

theorem entry?_store :
    PageCache.entry? (c.store page e) other = if page.same other then some e else c.entry? other := by
  unfold entry? store
  simp only [List.find?_append, find?_without]
  by_cases h : page.same other = true <;> simp [h]

theorem entry?_invalidate :
    PageCache.entry? (c.invalidate page) other = if page.same other then none else c.entry? other := by
  unfold entry? invalidate
  simp only [find?_without]
  by_cases h : page.same other = true <;> simp [h]

@[simp] theorem entry?_clear : c.clear.entry? other = none := rfl

variable {c page}

theorem exists_entry?_iff : (∃ e, c.entry? page = some e) ↔ ∃ k ∈ c.entries.map (·.1), k.same page = true := by
  constructor
  · rintro ⟨e, he⟩
    obtain ⟨k, hk, hsame⟩ := entry?_eq_some he
    exact ⟨k, List.mem_map.mpr ⟨_, hk, rfl⟩, hsame⟩
  · rintro ⟨k, hk, hsame⟩
    obtain ⟨t, ht, rfl⟩ := List.mem_map.mp hk
    unfold entry?
    cases hf : c.entries.find? (·.1.same page) with
    | none => exact absurd hsame (List.find?_eq_none.mp hf t ht)
    | some found => exact ⟨found.2, rfl⟩

/-! ## Events -/

/-- A call on the cache; or the files are now others. A look-up comes with what its caller
    compiles the page by. -/
inductive Event
  | lookUp (page : Path) (compile : Unit → Except SiteError CacheEntry)
  | get (page : Path)
  | invalidate (page : Path)
  | clear
  | change (files : FileTree)

def Event.isLookUp : Event → Bool
  | lookUp .. => true
  | _ => false

inductive Outcome
  /-- The kept page was the answer. -/
  | hit (page : Path)
  /-- The compiler of the caller ran and gave an entry. -/
  | compiled (page : Path) (e : CacheEntry)
  /-- It ran and failed. -/
  | failed (page : Path)
  | invalidated (page : Path)
  | cleared
  | nothing

namespace Outcome

def isHit : Outcome → Bool
  | hit _ => true
  | _ => false

def ran : Outcome → Bool
  | compiled .. => true
  | failed _ => true
  | _ => false

/-- What was kept of the page before is not what is kept of it now. -/
def replaces (page : Path) : Outcome → Bool
  | compiled named _ => named.same page
  | invalidated named => named.same page
  | cleared => true
  | _ => false

/-- What is kept of the page afterwards, where this was kept of it before. -/
def leaves (page : Path) (kept : Option CacheEntry) : Outcome → Option CacheEntry
  | compiled named e => if named.same page then some e else kept
  | invalidated named => if named.same page then none else kept
  | cleared => none
  | hit _ => kept
  | failed _ => kept
  | nothing => kept

def apply (c : PageCache) : Outcome → PageCache
  | hit _ => { c with hits := c.hits + 1 }
  | compiled page e => { c with misses := c.misses + 1 }.store page e
  | failed _ => { c with misses := c.misses + 1 }
  | invalidated page => c.invalidate page
  | cleared => c.clear
  | nothing => c

end Outcome

structure Moment where
  cache : PageCache
  files : FileTree

namespace Moment

def lookUp (m : Moment) (page : Path) (compile : Unit → Except SiteError CacheEntry) : Lookup × PageCache :=
  m.cache.getOrCompile m.files page compile

def next (m : Moment) : Event → Moment
  | .lookUp page compile => { m with cache := (m.lookUp page compile).2 }
  | .get _ => m
  | .invalidate page => { m with cache := m.cache.invalidate page }
  | .clear => { m with cache := m.cache.clear }
  | .change files => { m with files }

def outcome (m : Moment) : Event → Outcome
  | .lookUp page compile =>
    match (m.lookUp page compile).1.isMiss, compile () with
    | false, _ => .hit page
    | true, .ok e => .compiled page e
    | true, .error _ => .failed page
  | .get _ => .nothing
  | .invalidate page => .invalidated page
  | .clear => .cleared
  | .change _ => .nothing

def after (m : Moment) (events : List Event) : Moment := events.foldl next m

def history : Moment → List Event → List Outcome
  | _, [] => []
  | m, e :: rest => m.outcome e :: history (m.next e) rest

end Moment

/-! ## The last compile of a page -/

/-- The last compile of the page that succeeded gave this entry, and since then the page
    was not invalidated nor the cache cleared. -/
def LastCompiled (history : List Outcome) (page : Path) (e : CacheEntry) : Prop :=
  ∃ earlier later named, history = earlier ++ .compiled named e :: later ∧ named.same page = true ∧
    ∀ o ∈ later, o.replaces page = false

theorem not_lastCompiled_nil : ¬ LastCompiled [] page e := by
  rintro ⟨earlier, later, named, h, -⟩
  exact List.append_ne_nil_of_right_ne_nil earlier (List.cons_ne_nil _ _) h.symm

theorem lastCompiled_concat {history : List Outcome} {o : Outcome} :
    LastCompiled (history ++ [o]) page e ↔
      (∃ named, o = .compiled named e ∧ named.same page = true) ∨
        o.replaces page = false ∧ LastCompiled history page e := by
  constructor
  · rintro ⟨earlier, later, named, h, hnamed, hlater⟩
    rcases List.eq_nil_or_concat later with rfl | ⟨later, o', rfl⟩
    · obtain ⟨-, ho⟩ := List.append_inj' h rfl
      exact Or.inl ⟨named, List.singleton_inj.mp ho, hnamed⟩
    · rw [List.concat_eq_append, ← List.cons_append, ← List.append_assoc] at h
      obtain ⟨rfl, ho⟩ := List.append_inj' h rfl
      obtain rfl := List.singleton_inj.mp ho
      exact Or.inr ⟨hlater o (by simp), earlier, later, named, rfl, hnamed, fun p hp => hlater p (by simp [hp])⟩
  · rintro (⟨named, rfl, hnamed⟩ | ⟨ho, earlier, later, named, rfl, hnamed, hlater⟩)
    · exact ⟨history, [], named, rfl, hnamed, by simp⟩
    · refine ⟨earlier, later ++ [o], named, by simp, hnamed, fun p hp => ?_⟩
      rcases List.mem_append.mp hp with hp | hp
      · exact hlater p hp
      · exact List.mem_singleton.mp hp ▸ ho

/-- An outcome leaves the last compile of the page, where that was kept before. -/
theorem leaves_eq_some_iff {history : List Outcome} {kept : Option CacheEntry} (o : Outcome)
    (h : ∀ e, kept = some e ↔ LastCompiled history page e) :
    o.leaves page kept = some e ↔ LastCompiled (history ++ [o]) page e := by
  rw [lastCompiled_concat, ← h]
  cases o with
  | compiled named found => by_cases hn : named.same page = true <;> simp [Outcome.leaves, Outcome.replaces, hn]
  | invalidated named => by_cases hn : named.same page = true <;> simp [Outcome.leaves, Outcome.replaces, hn]
  | hit | failed | cleared | nothing => simp [Outcome.leaves, Outcome.replaces]

/-! ## One event after the other -/

structure Hits (m : Moment) (page : Path) (e : CacheEntry) : Prop where
  answer : ∀ compile, m.lookUp page compile = (.hit e.page, { m.cache with hits := m.cache.hits + 1 })
  current : m.cache.invalidateOnChange = true → e.IsCurrent m.files

structure Misses (m : Moment) (page : Path) : Prop where
  isMiss : ∀ compile, (m.lookUp page compile).1.isMiss = true
  result : ∀ compile, (m.lookUp page compile).1.result = (compile ()).map (·.page)
  hits : ∀ compile, (m.lookUp page compile).2.hits = m.cache.hits
  misses : ∀ compile, (m.lookUp page compile).2.misses = m.cache.misses + 1
  ok : ∀ compile e, compile () = .ok e → (m.lookUp page compile).2.entries = (m.cache.store page e).entries
  error : ∀ compile cause, compile () = .error cause → (m.lookUp page compile).2.entries = m.cache.entries

theorem hits_of_current? {m : Moment} (h : m.cache.current? m.files page = some e) :
    m.cache.entry? page = some e ∧ Hits m page e := by
  obtain ⟨hentry, hcheck⟩ := Option.filter_eq_some_iff.mp h
  refine ⟨hentry, fun compile => getOrCompile_hit h compile, fun hflag => CacheEntry.isStale_eq_false.mp ?_⟩
  simpa [hflag] using hcheck

theorem misses_of_current? {m : Moment} (h : m.cache.current? m.files page = none) : Misses m page := by
  have answer := getOrCompile_miss h
  constructor
  · intro compile
    simp only [Moment.lookUp, answer]
    cases compile () <;> rfl
  · intro compile
    simp only [Moment.lookUp, answer]
    cases compile () <;> rfl
  · intro compile
    simp only [Moment.lookUp, answer]
    cases compile () <;> rfl
  · intro compile
    simp only [Moment.lookUp, answer]
    cases compile () <;> rfl
  · intro compile e he
    simp only [Moment.lookUp, answer, he]
    rfl
  · intro compile cause he
    simp only [Moment.lookUp, answer, he]

/-- What is kept of a page is passed over only if one of its sources has changed. -/
theorem changed_of_current? {m : Moment} (h : m.cache.current? m.files page = none)
    (he : m.cache.entry? page = some e) :
    m.cache.invalidateOnChange = true ∧ ¬ e.IsCurrent m.files := by
  unfold current? at h
  rw [he] at h
  rw [← CacheEntry.isStale_eq_false]
  simpa using h

theorem Moment.next_eq_apply (m : Moment) (e : Event) : (m.next e).cache = (m.outcome e).apply m.cache := by
  cases e with
  | get | invalidate | clear | change => rfl
  | lookUp page compile =>
    cases hc : m.cache.current? m.files page with
    | some kept =>
      simp only [next, outcome, lookUp, getOrCompile_hit hc]
      rfl
    | none =>
      simp only [next, outcome, lookUp, getOrCompile_miss hc]
      cases compile () <;> rfl

section Apply

variable (o : Outcome) (c : PageCache)

theorem hits_apply : (o.apply c).hits = c.hits + if o.isHit then 1 else 0 := by
  cases o <;> rfl

theorem misses_apply : (o.apply c).misses = c.misses + if o.ran then 1 else 0 := by
  cases o <;> rfl

theorem checks_apply : (o.apply c).invalidateOnChange = c.invalidateOnChange := by
  cases o <;> rfl

theorem entry?_apply (page : Path) : PageCache.entry? (o.apply c) page = o.leaves page (PageCache.entry? c page) := by
  cases o with
  | compiled named e => exact entry?_store { c with misses := c.misses + 1 } named page e
  | invalidated named => exact entry?_invalidate c named page
  | cleared => exact entry?_clear c page
  | hit | failed | nothing => rfl

end Apply

/-- A cache that holds the last compiles of a history, and counts its look-ups. -/
structure Refines (c : PageCache) (history : List Outcome) : Prop where
  hits : c.hits = history.countP Outcome.isHit
  misses : c.misses = history.countP Outcome.ran
  entry : ∀ page e, c.entry? page = some e ↔ LastCompiled history page e
  /-- No page is kept twice. -/
  apart : (c.entries.map (·.1)).Pairwise fun p q => p.same q = false

theorem refines_new (invalidateOnChange : Bool) : Refines { invalidateOnChange } [] where
  hits := rfl
  misses := rfl
  entry _ e := iff_of_false nofun (not_lastCompiled_nil e)
  apart := .nil

namespace Refines

variable {history : List Outcome} (h : Refines c history)
include h

theorem apply (o : Outcome) : Refines (o.apply c) (history ++ [o]) where
  hits := by rw [hits_apply, h.hits, List.countP_append, List.countP_singleton]
  misses := by rw [misses_apply, h.misses, List.countP_append, List.countP_singleton]
  entry page e := by
    rw [entry?_apply]
    exact leaves_eq_some_iff e o (h.entry page)
  apart := by
    have hwithout : ∀ page : Path,
        ((c.entries.filter (!·.1.same page)).map (·.1)).Pairwise fun p q => p.same q = false :=
      fun page => h.apart.sublist (List.filter_sublist.map _)
    cases o with
    | hit | failed | nothing => exact h.apart
    | cleared => exact .nil
    | invalidated page => exact hwithout page
    | compiled page e =>
      show ((c.entries.filter (!·.1.same page) ++ [(page, e)]).map (·.1)).Pairwise _
      rw [List.map_append, List.pairwise_append]
      refine ⟨hwithout page, List.pairwise_singleton _ _, fun p hp q hq => ?_⟩
      obtain ⟨t, ht, rfl⟩ := List.mem_map.mp hp
      rw [List.mem_singleton.mp hq]
      simpa using (List.mem_filter.mp ht).2

end Refines

theorem Refines.next {history : List Outcome} {m : Moment} (h : Refines m.cache history) (e : Event) :
    Refines (m.next e).cache (history ++ [m.outcome e]) :=
  m.next_eq_apply e ▸ h.apply (m.outcome e)

theorem Refines.after {history : List Outcome} {m : Moment} (h : Refines m.cache history) (events : List Event) :
    Refines (m.after events).cache (history ++ m.history events) := by
  induction events generalizing m history with
  | nil => simpa [Moment.after, Moment.history] using h
  | cons e rest ih =>
    have := ih (h.next e)
    rwa [List.append_assoc] at this

theorem checks_after (m : Moment) (events : List Event) :
    (m.after events).cache.invalidateOnChange = m.cache.invalidateOnChange := by
  induction events generalizing m with
  | nil => rfl
  | cons e rest ih => exact (ih (m.next e)).trans ((congrArg _ (m.next_eq_apply e)).trans (checks_apply _ _))

/-- A look-up is a hit or a run of the compiler, and nothing else is. -/
theorem countP_history (m : Moment) (events : List Event) :
    (m.history events).countP Outcome.isHit + (m.history events).countP Outcome.ran = events.countP Event.isLookUp := by
  induction events generalizing m with
  | nil => rfl
  | cons e rest ih =>
    have hone : (if (m.outcome e).isHit then 1 else 0) + (if (m.outcome e).ran then 1 else 0) =
        if e.isLookUp then 1 else 0 := by
      cases e with
      | lookUp page compile =>
        cases hmiss : (m.lookUp page compile).1.isMiss <;> cases hran : compile () <;>
          simp [Moment.outcome, hmiss, hran, Outcome.isHit, Outcome.ran, Event.isLookUp]
      | get | invalidate | clear | change => rfl
    simp only [Moment.history, List.countP_cons]
    have := ih (m.next e)
    omega

/-! ## The cache as a map -/

/-- After any events, a new cache keeps of each page the last compile that succeeded since
    the page was forgotten. Its counters add up to the look-ups. The next look-up of a page
    is a hit on what is kept, with all its sources as recorded if the cache checks them; or it
    is a miss, where nothing is kept or a source has changed. Only a miss runs the compiler. -/
theorem lookUps_refine_map (invalidateOnChange : Bool) (files : FileTree) (events : List Event) :
    let start : Moment := ⟨{ invalidateOnChange }, files⟩
    let m := start.after events
    let history := start.history events
    (m.cache.hits + m.cache.misses = events.countP Event.isLookUp ∧ m.cache.misses = history.countP Outcome.ran) ∧
      (∀ page e, m.cache.entry? page = some e ↔ LastCompiled history page e) ∧
      (∃ pages : List Path, pages.Pairwise (fun p q => p.same q = false) ∧
        (∀ page, (∃ e, m.cache.entry? page = some e) ↔ ∃ k ∈ pages, k.same page = true) ∧ m.cache.size = pages.length) ∧
      (∀ page, (∃ e, LastCompiled history page e ∧ Hits m page e) ∨
        Misses m page ∧ ∀ e, LastCompiled history page e → invalidateOnChange = true ∧ ¬ e.IsCurrent m.files) ∧
      (invalidateOnChange = false → ∀ page e, m.cache.entry? page = some e → Hits m page e) := by
  intro start m history
  have h : Refines m.cache history := (refines_new invalidateOnChange).after (m := start) events
  have hchecks : m.cache.invalidateOnChange = invalidateOnChange := checks_after start events
  refine ⟨⟨?_, h.misses⟩, h.entry, ⟨_, h.apart, fun page => exists_entry?_iff, ?_⟩,
    fun page => ?_, fun hoff page e he => ?_⟩
  · rw [h.hits, h.misses]
    exact countP_history start events
  · rw [List.length_map]
    rfl
  · cases hc : m.cache.current? m.files page with
    | some e =>
      obtain ⟨hentry, hhits⟩ := hits_of_current? e hc
      exact Or.inl ⟨e, (h.entry page e).mp hentry, hhits⟩
    | none =>
      refine Or.inr ⟨misses_of_current? hc, fun e he => ?_⟩
      rw [← hchecks]
      exact changed_of_current? e hc ((h.entry page e).mpr he)
  · cases hc : m.cache.current? m.files page with
    | some e' =>
      obtain ⟨hentry, hhits⟩ := hits_of_current? e' hc
      cases he.symm.trans hentry
      exact hhits
    | none =>
      have := (changed_of_current? e hc he).1
      rw [hchecks, hoff] at this
      cases this

end PageCache

end ComponentSite
