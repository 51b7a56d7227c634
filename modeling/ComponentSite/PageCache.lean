/-
  ComponentSite.PageCache — compiled pages, kept by source path.

  A look-up answers with the kept page, or compiles the page and keeps the result.
  With `invalidateOnChange` a kept page counts only as long as every source it was
  compiled from still has the time recorded then; otherwise an entry stays until it
  is invalidated or replaced. A failed compile keeps nothing and takes nothing away.

  `hits` and `misses` count look-ups: a look-up that compiles is a miss, whatever
  comes of it.
-/
import ComponentSite.CompiledPage
import ComponentSite.FileTree

namespace ComponentSite

/-- A compiled page, and every source it was compiled from with its time then. -/
structure CacheEntry where
  page : CompiledPage
  sources : List (Path × Option Int)

/-- A source counts as changed when its time is another one or cannot be read. -/
def CacheEntry.isStale (files : FileTree) (e : CacheEntry) : Bool :=
  e.sources.any fun (path, recorded) =>
    match files.modified? path with
    | none => true
    | some now => recorded != some now

inductive Lookup
  /-- The page was kept. -/
  | hit (page : CompiledPage)
  /-- The page was compiled, and is kept now. -/
  | compiled (page : CompiledPage)
  /-- The page did not compile. -/
  | failed (cause : SiteError)

namespace Lookup

def result : Lookup → Except SiteError CompiledPage
  | hit page => .ok page
  | compiled page => .ok page
  | failed cause => .error cause

def isMiss : Lookup → Bool
  | hit _ => false
  | compiled _ => true
  | failed _ => true

end Lookup

structure PageCache where
  invalidateOnChange : Bool := false
  entries : List (Path × CacheEntry) := []
  hits : Nat := 0
  misses : Nat := 0

namespace PageCache

def entry? (c : PageCache) (page : Path) : Option CacheEntry :=
  (c.entries.find? (·.1.same page)).map (·.2)

/-- The page kept for a path, stale or not. -/
def get? (c : PageCache) (page : Path) : Option CompiledPage := (c.entry? page).map (·.page)

def size (c : PageCache) : Nat := c.entries.length

def store (c : PageCache) (page : Path) (e : CacheEntry) : PageCache :=
  { c with entries := c.entries.filter (!·.1.same page) ++ [(page, e)] }

def invalidate (c : PageCache) (page : Path) : PageCache :=
  { c with entries := c.entries.filter (!·.1.same page) }

def clear (c : PageCache) : PageCache := { c with entries := [] }

/-- The entry that answers a look-up of a page without compiling it. -/
def current? (c : PageCache) (files : FileTree) (page : Path) : Option CacheEntry :=
  (c.entry? page).filter fun e => !(c.invalidateOnChange && e.isStale files)

def getOrCompile (c : PageCache) (files : FileTree) (page : Path)
    (compile : Unit → Except SiteError CacheEntry) : Lookup × PageCache :=
  match c.current? files page with
  | some e => (.hit e.page, { c with hits := c.hits + 1 })
  | none =>
    let c := { c with misses := c.misses + 1 }
    match compile () with
    | .ok e => (.compiled e.page, c.store page e)
    | .error cause => (.failed cause, c)

end PageCache

end ComponentSite
