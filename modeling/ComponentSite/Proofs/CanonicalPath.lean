/-
  ComponentSite.Proofs.CanonicalPath — a normal path leads where the path leads.

  A path is walked step by step through folders without links (`Folders`): `..` leads from a
  folder to the one it is in, from the root to the root, and a name to a folder below. A name
  need not lead anywhere. Wherever a path leads, its normal form leads there too, because `..`
  behind a name goes back to the folder that the name was taken in (`leads_normalize`).

  There are folders in which every name leads somewhere: the lists of names (`Folders.named`).
  From a folder that is deep enough, one name over and over that is not in the path, the place
  that the path leads to shows whether its normal form starts at the root or how far up, and
  then its names (`walk_rootedSteps`). So paths that lead to one place from every folder that is
  deep enough have one normal form (`normalSegments_eq_of_leads`): it is canonical
  (`normalize_canonical`).
-/
import ComponentSite.Proofs.JoinedPath
import Mathlib.Algebra.Order.BigOperators.Group.List
import Mathlib.Algebra.Order.Group.Nat
import Mathlib.Data.List.Chain

namespace ComponentSite

/-! ## Walking -/

structure Folders where
  Folder : Type
  root : Folder
  /-- The folder that a folder is in. -/
  above : Folder → Folder
  below? : Folder → String → Option Folder
  above_root : above root = root
  above_below {folder lower : Folder} {name : String} : below? folder name = some lower → above lower = folder

namespace Folders

variable (t : Folders)

def step (here : t.Folder) : Segment → Option t.Folder
  | .root => some t.root
  | .here => some here
  | .up => some (t.above here)
  | .name n => t.below? here n

def walk : t.Folder → List Segment → Option t.Folder
  | start, [] => some start
  | start, s :: steps => (t.step start s).bind fun here => walk here steps

def Leads (start : t.Folder) (p : Path) (place : t.Folder) : Prop := t.walk start p.segments = some place

variable {t} {start here place next : t.Folder}

theorem walk_append (start : t.Folder) (steps more : List Segment) :
    t.walk start (steps ++ more) = (t.walk start steps).bind fun here => t.walk here more := by
  induction steps generalizing start with
  | nil => rfl
  | cons s steps ih =>
    rw [List.cons_append, walk, walk, Option.bind_assoc]
    exact congrArg _ (funext fun here => ih here)

theorem walk_concat (start : t.Folder) (steps : List Segment) (s : Segment) :
    t.walk start (steps ++ [s]) = (t.walk start steps).bind fun here => t.step here s := by
  rw [walk_append]
  refine congrArg _ (funext fun here => ?_)
  rw [walk]
  exact Option.bind_fun_some _

/-- One more step on the stack leads on from where the stack leads. -/
theorem walk_pushSegment {stack : List Segment} {s : Segment} (h : t.walk start stack.reverse = some here)
    (hs : t.step here s = some next) : t.walk start (Path.pushSegment stack s).reverse = some next := by
  have hconcat : t.walk start (s :: stack).reverse = some next := by
    rw [List.reverse_cons, walk_concat, h, Option.bind_some, hs]
  cases s with
  | root => exact hconcat
  | name n => exact hconcat
  | here =>
    cases hs
    exact h
  | up =>
    cases hs
    cases stack with
    | nil => exact hconcat
    | cons top above =>
      rw [List.reverse_cons, walk_concat] at h
      obtain ⟨folder, hfolder, htop⟩ := Option.bind_eq_some_iff.mp h
      cases top with
      | here | up => exact hconcat
      | root =>
        -- there is nothing above the root
        cases htop
        show t.walk start (Segment.root :: above).reverse = some (t.above t.root)
        rw [t.above_root, List.reverse_cons, walk_concat, hfolder]
        rfl
      | name n =>
        show t.walk start above.reverse = some (t.above here)
        rw [t.above_below htop]
        exact hfolder

theorem walk_foldl_pushSegment {steps stack : List Segment} (h : t.walk start stack.reverse = some here)
    (hsteps : t.walk here steps = some place) :
    t.walk start (steps.foldl Path.pushSegment stack).reverse = some place := by
  induction steps generalizing stack here with
  | nil =>
    cases hsteps
    exact h
  | cons s steps ih =>
    obtain ⟨next, hs, hrest⟩ := Option.bind_eq_some_iff.mp hsteps
    exact ih (walk_pushSegment h hs) hrest

/-- Wherever a path leads, its normal form leads there. -/
theorem leads_normalize {p : Path} (h : t.Leads start p place) : t.Leads start p.normalize place := by
  unfold Leads
  rw [Path.segments_normalize, Path.normalSegments]
  exact walk_foldl_pushSegment rfl h

/-! ## The tree of all names -/

/-- The names that lead to a folder from the root, the last first. -/
abbrev Names := { names : List String // ∀ n ∈ names, (Segment.name n).IsStep }

def Names.below? (folder : Names) (n : String) : Option Names :=
  if hn : (Segment.name n).IsStep then some ⟨n :: folder.1, List.forall_mem_cons.mpr ⟨hn, folder.2⟩⟩ else none

theorem Names.below?_eq {folder lower : Names} {n : String} (h : folder.below? n = some lower) :
    lower.1 = n :: folder.1 := by
  unfold Names.below? at h
  split at h
  · cases h
    rfl
  · cases h

def named : Folders where
  Folder := Names
  root := ⟨[], by simp⟩
  above folder := ⟨folder.1.tail, fun n hn => folder.2 n (List.mem_of_mem_tail hn)⟩
  below? := Names.below?
  above_root := rfl
  above_below h := Subtype.ext (congrArg List.tail (Names.below?_eq h))

theorem named_step (start : named.Folder) {s : Segment} (h : s = .root ∨ s = .here ∨ s.IsStep) :
    ∃ next, named.step start s = some next := by
  cases s with
  | root | here | up => exact ⟨_, rfl⟩
  | name n =>
    have hn : (Segment.name n).IsStep := by simpa using h
    exact ⟨_, dif_pos hn⟩

/-- Where every name leads somewhere, every path does. -/
theorem exists_leads_named (start : named.Folder) (p : Path) : ∃ place, named.Leads start p place := by
  have hsteps : ∀ s ∈ p.segments, s = .root ∨ s = .here ∨ s.IsStep := by
    obtain ⟨steps, hsteps, h | h | h⟩ := p.segments_shape
    · exact fun s hs => Or.inr (Or.inr (hsteps s (h ▸ hs)))
    all_goals
      rw [h]
      intro s hs
      rcases List.mem_cons.mp hs with rfl | hs
      · simp
      · exact Or.inr (Or.inr (hsteps s hs))
  unfold Leads
  generalize p.segments = steps at hsteps
  induction steps generalizing start with
  | nil => exact ⟨start, rfl⟩
  | cons s steps ih =>
    obtain ⟨hs, hrest⟩ := List.forall_mem_cons.mp hsteps
    obtain ⟨next, hnext⟩ := named_step start hs
    rw [walk, hnext]
    exact ih next hrest

theorem walk_named_ups {start place : named.Folder} {ups : Nat} {steps : List Segment}
    (h : named.walk start (List.replicate ups .up ++ steps) = some place) :
    ∃ here : named.Folder, here.1 = start.1.drop ups ∧ named.walk here steps = some place := by
  induction ups generalizing start with
  | zero => exact ⟨start, rfl, h⟩
  | succ ups ih =>
    obtain ⟨here, hhere, hwalk⟩ := @ih (named.above start) h
    refine ⟨here, ?_, hwalk⟩
    rw [hhere]
    exact List.drop_tail

theorem walk_named_names {start place : named.Folder} {names : List String}
    (h : named.walk start (names.map .name) = some place) : place.1 = names.reverse ++ start.1 := by
  induction names generalizing start with
  | nil =>
    cases h
    rfl
  | cons n names ih =>
    obtain ⟨next, hnext, hrest⟩ := Option.bind_eq_some_iff.mp h
    rw [ih hrest, Names.below?_eq hnext, List.reverse_cons, List.append_assoc]
    rfl

end Folders

/-! ## Normal forms apart -/

namespace Path
open Folders

/-- The root, or some steps up, and then names. -/
def rootedSteps : Option Nat → List String → List Segment
  | none, names => .root :: names.map .name
  | some ups, names => List.replicate ups .up ++ names.map .name

theorem NormalStack.exists_rootedSteps {stack : List Segment} (h : NormalStack stack) :
    ∃ ups names, stack.reverse = rootedSteps ups names := by
  induction h with
  | nil => exact ⟨some 0, [], rfl⟩
  | root => exact ⟨none, [], rfl⟩
  | @up stack hall =>
    have hstack : stack.reverse = List.replicate stack.length .up := by
      rw [List.eq_replicate_of_mem hall, List.reverse_replicate, List.length_replicate]
    refine ⟨some (stack.length + 1), [], ?_⟩
    rw [List.reverse_cons, hstack, ← List.replicate_succ', rootedSteps, List.map_nil, List.append_nil]
  | @name n stack hn _ ih =>
    obtain ⟨ups, names, hstack⟩ := ih
    refine ⟨ups, names ++ [n], ?_⟩
    rw [List.reverse_cons, hstack]
    cases ups <;> simp [rootedSteps]

def kept (depth : Nat) : Option Nat → Nat
  | none => 0
  | some ups => depth - ups

/-- From a folder of one name over and over. -/
theorem walk_rootedSteps {ups : Option Nat} {names : List String} {start place : named.Folder} {n : String}
    {depth : Nat} (hstart : start.1 = List.replicate depth n)
    (h : named.walk start (rootedSteps ups names) = some place) :
    place.1 = names.reverse ++ List.replicate (kept depth ups) n := by
  cases ups with
  | none => exact walk_named_names h
  | some ups =>
    obtain ⟨here, hhere, hwalk⟩ := walk_named_ups h
    rw [walk_named_names hwalk, hhere, hstart, List.drop_replicate]
    rfl

theorem exists_fresh_name (names : List String) : ∃ n, (Segment.name n).IsStep ∧ n ∉ names := by
  let n := String.ofList (List.replicate ((names.map String.length).sum + 3) 'a')
  have hlength : n.toList.length = (names.map String.length).sum + 3 := by simp [n]
  refine ⟨n, ⟨?_, ?_, ?_, ?_⟩, ?_⟩
  · exact List.ne_nil_of_length_pos (by omega)
  · simp [n]
  · intro h
    simp [h] at hlength
  · intro h
    simp [h] at hlength
  · intro h
    have hle := List.le_sum_of_mem (List.mem_map_of_mem h (f := String.length))
    rw [String.length_toList] at hlength
    omega

def ups (p : Path) : Nat := p.segments.count .up

/-- Paths that lead to one place from every folder that is deep enough have one normal form. -/
theorem normalSegments_eq_of_leads {p q : Path} (enough : Nat)
    (h : ∀ start : named.Folder, enough ≤ start.1.length →
      ∃ place, named.Leads start p place ∧ named.Leads start q place) :
    normalSegments p.segments = normalSegments q.segments := by
  obtain ⟨ups, names, hp⟩ := (normalSegments_normal p).exists_rootedSteps
  obtain ⟨ups', names', hq⟩ := (normalSegments_normal q).exists_rootedSteps
  rw [List.reverse_reverse] at hp hq
  obtain ⟨n, hn, hfresh⟩ := exists_fresh_name (names ++ names')
  obtain ⟨hnames, hnames'⟩ : n ∉ names.reverse ∧ n ∉ names'.reverse := by simpa using hfresh
  let depth := enough + ups.getD 0 + ups'.getD 0 + 1
  let start : named.Folder := ⟨List.replicate depth n, fun m hm => List.eq_of_mem_replicate hm ▸ hn⟩
  have hdepth : enough ≤ start.1.length := by
    show enough ≤ (List.replicate depth n).length
    rw [List.length_replicate]
    omega
  obtain ⟨place, hleads, hleads'⟩ := h start hdepth
  have hplace := leads_normalize hleads
  have hplace' := leads_normalize hleads'
  unfold Leads at hplace hplace'
  rw [segments_normalize, hp] at hplace
  rw [segments_normalize, hq] at hplace'
  have hsame := (walk_rootedSteps rfl hplace).symm.trans (walk_rootedSteps rfl hplace')
  -- the fresh name tells how far up the paths lead
  have hcount := congrArg (List.count n) hsame
  simp only [List.count_append, List.count_eq_zero_of_not_mem hnames, List.count_eq_zero_of_not_mem hnames',
    List.count_replicate_self, Nat.zero_add] at hcount
  have hups : ups = ups' := by
    cases ups <;> cases ups' <;> simp only [kept, depth, Option.getD_none, Option.getD_some] at hcount
    · rfl
    · omega
    · omega
    · exact congrArg some (by omega)
  rw [hcount] at hsame
  rw [hp, hq, hups, List.reverse_inj.mp (List.append_cancel_right hsame)]

theorem NormalStack.here_not_mem {stack : List Segment} (h : NormalStack stack) : Segment.here ∉ stack := by
  induction h with
  | nil | root => simp
  | up hall => exact fun hmem => by simpa using hall _ ((List.mem_cons.mp hmem).resolve_left Segment.noConfusion)
  | name _ _ ih => simpa using ih

theorem NormalStack.isChain {stack : List Segment} (h : NormalStack stack) :
    stack.IsChain fun next s => next = .up → s = .up := by
  induction h with
  | nil | root => simp
  | @up stack hall =>
    have hups : ∀ s ∈ Segment.up :: stack, s = .up := List.forall_mem_cons.mpr ⟨rfl, hall⟩
    have hpairs : (Segment.up :: stack).Pairwise fun next s => next = .up → s = .up :=
      List.pairwise_of_forall_mem_list fun _ _ s hs _ => hups s hs
    exact hpairs.isChain
  | name _ _ ih => exact List.isChain_cons.mpr ⟨fun _ _ h => Segment.noConfusion h, ih⟩

theorem leads_eq_of_normalize_eq {t : Folders} {start place place' : t.Folder} {p q : Path}
    (h : p.normalize = q.normalize) (hp : t.Leads start p place) (hq : t.Leads start q place') : place = place' := by
  have hsame := leads_normalize hp
  rw [h] at hsame
  exact Option.some.inj (hsame.symm.trans (leads_normalize hq))

/-- The normal form of a path has no `.`, and `..` in it only in front or behind another `..`. It
    leads wherever the path leads, in any folders, and it is its own normal form. Two paths of one
    normal form do not lead to different places, and they have one normal form exactly if both
    lead to one place from every folder that is deep enough. -/
theorem normalize_canonical (p q : Path) :
    (Segment.here ∉ p.normalize.segments ∧
        p.normalize.segments.IsChain fun s next => next = .up → s = .up) ∧
      (∀ (t : Folders) (start place : t.Folder), t.Leads start p place → t.Leads start p.normalize place) ∧
      p.normalize.normalize = p.normalize ∧
      (p.normalize = q.normalize → ∀ (t : Folders) (start place place' : t.Folder),
        t.Leads start p place → t.Leads start q place' → place = place') ∧
      (p.normalize = q.normalize ↔
        ∀ start : named.Folder, p.ups ≤ start.1.length → q.ups ≤ start.1.length →
          ∃ place, named.Leads start p place ∧ named.Leads start q place) := by
  refine ⟨?_, fun t start place => leads_normalize, normalize_normalize p, ?_, ?_, ?_⟩
  · have hnormal := normalSegments_normal p
    rw [segments_normalize]
    exact ⟨fun hmem => hnormal.here_not_mem (List.mem_reverse.mpr hmem), List.isChain_reverse.mp hnormal.isChain⟩
  · exact fun h t start place place' => leads_eq_of_normalize_eq h
  · intro h start _ _
    obtain ⟨place, hp⟩ := exists_leads_named start p
    obtain ⟨place', hq⟩ := exists_leads_named start q
    obtain rfl := leads_eq_of_normalize_eq h hp hq
    exact ⟨place, hp, hq⟩
  · intro h
    have hsegments := normalSegments_eq_of_leads (p.ups + q.ups) fun start hdeep => h start (by omega) (by omega)
    rw [normalize, normalize, hsegments]

end Path

end ComponentSite
