/-
  ComponentSite.Proofs.RequestRouting — which routes a client can ask for.

  A client writes the address of a route in percent codes (`percentEncoded`): letters,
  digits, `-`, `.`, `_`, `~` and the slash stand for themselves, every other byte is coded.
  Such a target is always well formed (`parse?_percentEncoded`), and reading the codes
  gives the address back (`percentDecoded_percentEncoded`).

  A route path without braces matches itself and nothing else (`isMatch_literal`), and comes
  before every other pattern that matches the same request (`literal_before`). So the
  request path that is the address of a route finds this route (`best?_self`).

  But request paths are matched as they are written, with their codes, and the address of a
  route stands in the table as it is, without. They are the same only if there is nothing
  to code (`percentEncoded_eq_self_iff`): the page in a folder with a space in its name has
  a route that no such request reaches (`encoded_address_reaches_iff`).
-/
import ComponentSite.Http.Response
import ComponentSite.Proofs.ClassName
import ComponentSite.Proofs.Warming

namespace ComponentSite.Http

variable {c : Char} {s : List Char}

/-! ## Percent codes -/

def isPlainChar (c : Char) : Bool := c.isAlphanum || "-._~/".toList.contains c

def hexDigit (n : Nat) : Char := (Nat.digitChar n).toUpper

def percentCode (b : UInt8) : List Char := ['%', hexDigit (b.toNat / 16), hexDigit (b.toNat % 16)]

def percentCoded (c : Char) : List Char :=
  if isPlainChar c then [c] else (String.utf8EncodeChar c).flatMap percentCode

def percentEncoded (address : String) : String := String.ofList (address.toList.flatMap percentCoded)

theorem toNat_lt_of_isPlainChar (h : isPlainChar c = true) : c.toNat < 128 := by
  have hle : ∀ d : Char, d.toNat < 128 → c.val ≤ d.val → c.toNat < 128 :=
    fun d hd hcd => Nat.lt_of_le_of_lt (UInt32.le_iff_toNat_le.mp hcd) hd
  unfold isPlainChar at h
  delta Char.isAlphanum Char.isAlpha Char.isUpper Char.isLower Char.isDigit at h
  simp only [Bool.or_eq_true, Bool.and_eq_true, decide_eq_true_eq, List.contains_iff_mem] at h
  rcases h with ((h | h) | h) | h
  · exact hle 'Z' (by decide) h.2
  · exact hle 'z' (by decide) h.2
  · exact hle '9' (by decide) h.2
  · have hall : "-._~/".toList.all (·.toNat < 128) = true := by decide
    exact of_decide_eq_true (List.all_eq_true.mp hall c h)

theorem isPathChar_of_isPlainChar (h : isPlainChar c = true) : Target.isPathChar c = true := by
  have hall : ∀ n < 128, isPlainChar (Char.ofNat n) = true → Target.isPathChar (Char.ofNat n) = true := by decide
  have := hall c.toNat (toNat_lt_of_isPlainChar h)
  rw [Char.ofNat_toNat] at this
  exact this h

theorem isPathChar_of_mem_percentCode {b : UInt8} (h : c ∈ percentCode b) : Target.isPathChar c = true := by
  have hdigit : ∀ n < 16, Target.isPathChar (hexDigit n) = true := by decide
  have hb : b.toNat < 256 := b.toNat_lt
  simp only [percentCode, List.mem_cons, List.not_mem_nil, or_false] at h
  rcases h with rfl | rfl | rfl
  · decide
  · exact hdigit _ (by omega)
  · exact hdigit _ (by omega)

theorem isPathChar_of_mem_percentCoded {d : Char} (h : d ∈ percentCoded c) : Target.isPathChar d = true := by
  unfold percentCoded at h
  split at h
  · rename_i hplain
    exact List.mem_singleton.mp h ▸ isPathChar_of_isPlainChar hplain
  · obtain ⟨b, -, hd⟩ := List.mem_flatMap.mp h
    exact isPathChar_of_mem_percentCode hd

theorem length_percentCoded (c : Char) : (percentCoded c).length = if isPlainChar c then 1 else 3 * c.utf8Size := by
  unfold percentCoded
  split
  · rfl
  · rw [List.length_flatMap]
    simp [percentCode, Nat.mul_comm]

theorem le_length_flatMap_percentCoded (s : List Char) : s.length ≤ (s.flatMap percentCoded).length := by
  induction s with
  | nil => simp
  | cons c s ih =>
    have hone : 1 ≤ (percentCoded c).length := by
      rw [length_percentCoded]
      have := c.utf8Size_pos
      split <;> omega
    rw [List.flatMap_cons, List.length_append, List.length_cons]
    omega

theorem flatMap_percentCoded_eq_self_iff : s.flatMap percentCoded = s ↔ ∀ c ∈ s, isPlainChar c = true := by
  constructor
  · intro h
    induction s with
    | nil => simp
    | cons c s ih =>
      rw [List.flatMap_cons] at h
      have hplain : isPlainChar c = true := by
        by_contra hcoded
        have hlong := length_percentCoded c
        rw [if_neg hcoded] at hlong
        have hrest := le_length_flatMap_percentCoded s
        have hsize := c.utf8Size_pos
        have hlength := congrArg List.length h
        rw [List.length_append, List.length_cons] at hlength
        omega
      rw [percentCoded, if_pos hplain] at h
      exact List.forall_mem_cons.mpr ⟨hplain, ih (List.cons.inj h).2⟩
  · intro h
    induction s with
    | nil => rfl
    | cons c s ih =>
      obtain ⟨hc, hs⟩ := List.forall_mem_cons.mp h
      rw [List.flatMap_cons, ih hs, percentCoded, if_pos hc]
      rfl

/-- An address is written as it is exactly if there is nothing to code. -/
theorem percentEncoded_eq_self_iff {address : String} :
    percentEncoded address = address ↔ address.toList.all isPlainChar = true := by
  rw [List.all_eq_true, ← flatMap_percentCoded_eq_self_iff]
  constructor
  · intro h
    have := congrArg String.toList h
    rwa [percentEncoded, String.toList_ofList] at this
  · intro h
    rw [percentEncoded, h, String.ofList_toList]

theorem percentDecoded_percentCode (b : UInt8) (rest : List UInt8) :
    Query.percentDecoded ((percentCode b).flatMap String.utf8EncodeChar ++ rest) = b :: Query.percentDecoded rest := by
  have hdigit : ∀ n < 16, String.utf8EncodeChar (hexDigit n) = [UInt8.ofNat (hexDigit n).toNat] ∧
      Text.hexDigit? (Char.ofNat (UInt8.ofNat (hexDigit n).toNat).toNat) = some n := by decide
  have hb : b.toNat < 256 := b.toNat_lt
  obtain ⟨hhigh, hhigh'⟩ := hdigit (b.toNat / 16) (by omega)
  obtain ⟨hlow, hlow'⟩ := hdigit (b.toNat % 16) (by omega)
  have hpercent : String.utf8EncodeChar '%' = [37] := by decide
  have hbyte : UInt8.ofNat (b.toNat / 16 * 16 + b.toNat % 16) = b := by
    rw [Nat.div_add_mod', UInt8.ofNat_toNat]
  have hread : Query.hexByte? (UInt8.ofNat (hexDigit (b.toNat / 16)).toNat)
      (UInt8.ofNat (hexDigit (b.toNat % 16)).toNat) =
      some b := by
    unfold Query.hexByte?
    rw [hhigh', hlow']
    exact congrArg some hbyte
  simp only [percentCode, List.flatMap_cons, List.flatMap_nil, hpercent, hhigh, hlow, List.append_nil, List.cons_append,
    List.nil_append]
  rw [Query.percentDecoded, hread]

theorem percentDecoded_percentCoded (c : Char) (rest : List UInt8) :
    Query.percentDecoded ((percentCoded c).flatMap String.utf8EncodeChar ++ rest) =
      String.utf8EncodeChar c ++ Query.percentDecoded rest := by
  unfold percentCoded
  split
  · rename_i hplain
    have hall : ∀ n < 128, isPlainChar (Char.ofNat n) = true →
        String.utf8EncodeChar (Char.ofNat n) = [UInt8.ofNat n] ∧ UInt8.ofNat n ≠ 37 := by decide
    have := hall c.toNat (toNat_lt_of_isPlainChar hplain)
    rw [Char.ofNat_toNat] at this
    obtain ⟨hbyte, hne⟩ := this hplain
    rw [List.flatMap_singleton, hbyte, List.singleton_append, List.singleton_append, Query.percentDecoded]
    exact fun _ _ _ hpercent => absurd hpercent hne
  · generalize String.utf8EncodeChar c = bytes
    induction bytes with
    | nil => rfl
    | cons b bytes ih =>
      rw [List.flatMap_cons, List.flatMap_append, List.append_assoc, percentDecoded_percentCode, ih]
      rfl

/-- The codes of an address give the address. -/
theorem percentDecoded_percentEncoded (address : String) :
    Query.percentDecoded (Text.Utf8.encode (percentEncoded address).toList) = Text.Utf8.encode address.toList := by
  unfold Text.Utf8.encode
  rw [toList_toUTF8, toList_toUTF8, String.toList_ofList, String.toList_ofList, percentEncoded, String.toList_ofList]
  generalize address.toList = s
  induction s with
  | nil => rfl
  | cons c s ih => rw [List.flatMap_cons, List.flatMap_append, percentDecoded_percentCoded, ih, List.flatMap_cons]

/-! ## Targets -/

theorem isPathChar_of_mem_percentEncoded {address : String} (h : c ∈ (percentEncoded address).toList) :
    Target.isPathChar c = true := by
  rw [percentEncoded, String.toList_ofList] at h
  obtain ⟨d, -, hd⟩ := List.mem_flatMap.mp h
  exact isPathChar_of_mem_percentCoded hd

theorem pathAndQuery?_of_chars {path : List Char} (hne : path ≠ []) (hpath : ∀ c ∈ path, Target.isPathChar c = true) :
    Target.pathAndQuery? path = some ⟨String.ofList path, none⟩ ∧
      ∀ query : List Char, query.all Target.isQueryChar = true →
        Target.pathAndQuery? (path ++ '?' :: query) = some ⟨String.ofList path, some (String.ofList query)⟩ := by
  have hends : ∀ c ∈ path, (!Target.endsPath c) = true := by
    intro c hc
    have := hpath c hc
    simp only [Target.isPathChar, Bool.and_eq_true, bne_iff_ne] at this
    simp [Target.endsPath, this.1.2, this.2]
  have hall : path.all Target.isPathChar = true := List.all_eq_true.mpr hpath
  have hnonempty : path.isEmpty = false := by simpa using hne
  constructor
  · unfold Target.pathAndQuery?
    rw [List.takeWhile_eq_self_iff.mpr hends, List.dropWhile_eq_nil_iff.mpr hends]
    simp [hall, hnonempty]
  · intro query hquery
    have hfragment : ∀ c ∈ query, (c != '#') = true := by
      intro c hc
      have := List.all_eq_true.mp hquery c hc
      simp only [Target.isQueryChar, Bool.and_eq_true] at this
      exact this.2
    obtain ⟨htake, hdrop⟩ := Text.takeWhile_append_of_head hends (t := '?' :: query) rfl
    unfold Target.pathAndQuery?
    rw [htake, hdrop]
    simp only [hall, hnonempty, List.takeWhile_eq_self_iff.mpr hfragment, hquery, Bool.not_true, Bool.false_eq_true,
      if_false, if_true]

def targetText (path : String) (query : Option String) : String :=
  match query with
  | none => path
  | some query => path ++ "?" ++ query

/-- The target of an address with a query is well formed, unless it is too long. -/
theorem parse?_percentEncoded {address : String} (hroot : address.toList.head? = some '/') {query : Option String}
    (hquery : ∀ q ∈ query, q.toList.all Target.isQueryChar = true)
    (hsize : (targetText (percentEncoded address) query).utf8ByteSize ≤ Target.maxBytes) :
    Target.parse? (targetText (percentEncoded address) query) = some ⟨percentEncoded address, query⟩ := by
  obtain ⟨rest, hrest⟩ : ∃ rest, (percentEncoded address).toList = '/' :: rest := by
    obtain ⟨l, hl⟩ := List.head?_eq_some_iff.mp hroot
    refine ⟨l.flatMap percentCoded, ?_⟩
    rw [percentEncoded, String.toList_ofList, hl, List.flatMap_cons]
    rfl
  have hne : (percentEncoded address).toList ≠ [] := by simp [hrest]
  obtain ⟨hpath, hboth⟩ := pathAndQuery?_of_chars hne fun c hc => isPathChar_of_mem_percentEncoded hc
  rw [String.ofList_toList] at hpath hboth
  unfold Target.parse?
  rw [if_neg (by omega)]
  cases query with
  | none =>
    simp only [targetText, hrest]
    rw [← hrest]
    exact hpath
  | some q =>
    have htext : (targetText (percentEncoded address) (some q)).toList =
        (percentEncoded address).toList ++ '?' :: q.toList := by
      simp [targetText]
    have := hboth q.toList (hquery q rfl)
    rw [String.ofList_toList, ← htext] at this
    rw [hrest] at htext
    simp only [htext] at this ⊢
    exact this

/-! ## Patterns -/

namespace Pattern

theorem ofChars_of_plain {fuel : Nat} (hfuel : s.length ≤ fuel) (hopen : '{' ∉ s) (hclose : '}' ∉ s) :
    ofChars fuel s = s.map .char := by
  induction s generalizing fuel with
  | nil => cases fuel <;> rfl
  | cons c s ih =>
    cases fuel with
    | zero => cases hfuel
    | succ fuel =>
      have := ih (Nat.le_of_succ_le_succ hfuel) (List.not_mem_of_not_mem_cons hopen)
        (List.not_mem_of_not_mem_cons hclose)
      unfold ofChars
      split <;> simp_all

/-- A pattern that is a text without braces is that of this text alone. -/
theorem eq_of_ofChars {fuel : Nat} {q : List Char} (hfuel : s.length ≤ fuel) (hopen : '{' ∉ q) (hclose : '}' ∉ q)
    (h : ofChars fuel s = q.map .char) : s = q := by
  induction s generalizing fuel q with
  | nil =>
    have : q.map PatternPart.char = [] := by
      rw [← h]
      cases fuel <;> rfl
    exact (List.map_eq_nil_iff.mp this).symm
  | cons c s ih =>
    cases fuel with
    | zero => cases hfuel
    | succ fuel =>
      have hleft := Nat.le_of_succ_le_succ hfuel
      -- Whatever is not read as itself begins with a brace or with no character at all.
      unfold ofChars at h
      split at h
      · omega
      · cases ‹_ :: _ = []›
      · obtain ⟨d, t, rfl, hd, -⟩ := List.map_eq_cons_iff.mp h.symm
        cases hd
        exact absurd List.mem_cons_self hopen
      · obtain ⟨d, t, rfl, hd, -⟩ := List.map_eq_cons_iff.mp h.symm
        cases hd
        exact absurd List.mem_cons_self hclose
      · split at h
        all_goals obtain ⟨d, t, rfl, hd, -⟩ := List.map_eq_cons_iff.mp h.symm
        all_goals cases hd
        exact absurd List.mem_cons_self hopen
      · rename_i hc
        obtain ⟨d, t, rfl, hd, ht⟩ := List.map_eq_cons_iff.mp h.symm
        cases hd
        cases hc
        cases ‹fuel + 1 = Nat.succ _›
        rw [ih hleft (List.not_mem_of_not_mem_cons hopen) (List.not_mem_of_not_mem_cons hclose) ht.symm]

theorem isMatch_literal {q : List Char} : isMatch (s.map .char) q = true ↔ s = q := by
  induction s generalizing q with
  | nil => cases q <;> simp [isMatch]
  | cons c s ih =>
    cases q with
    | nil => simp [isMatch]
    | cons d q => simp [isMatch, ih]

theorem eq_nil_of_isMatch_nil {p : Pattern} (h : p.isMatch [] = true) : p = [] := by
  induction p with
  | nil => rfl
  | cons part p ih =>
    cases part with
    | char c => simp [isMatch] at h
    | rest => simp [isMatch] at h
    | segment =>
      simp only [isMatch, List.takeWhile_nil, List.dropWhile_nil, Bool.and_eq_true] at h
      simp [ih h.2] at h

theorem isBefore_self (p : Pattern) : p.isBefore p = false := by
  induction p with
  | nil => rfl
  | cons part p ih => simp [isBefore, ih]

/-- The text of a request is the most definite of the patterns that match the request. -/
theorem literal_before {p : Pattern} {q : List Char} (h : p.isMatch q = true) :
    p = q.map .char ∨ isBefore (q.map .char) p = true ∧ isBefore p (q.map .char) = false := by
  induction p generalizing q with
  | nil =>
    have : q = [] := by simpa [isMatch] using h
    exact Or.inl (by rw [this]; rfl)
  | cons part p ih =>
    cases q with
    | nil => cases eq_nil_of_isMatch_nil h
    | cons d q =>
      cases part with
      | char c =>
        simp only [isMatch, Bool.and_eq_true, beq_iff_eq] at h
        obtain ⟨rfl, h⟩ := h
        rcases ih h with rfl | ⟨hbefore, hafter⟩
        · exact Or.inl rfl
        · exact Or.inr ⟨by simpa [isBefore, rank] using hbefore, by simpa [isBefore, rank] using hafter⟩
      | segment => exact Or.inr ⟨by simp [isBefore, rank], by simp [isBefore, rank]⟩
      | rest => exact Or.inr ⟨by simp [isBefore, rank], by simp [isBefore, rank]⟩

def prefer {α : Type} (before : α → α → Bool) (best : Option α) (a : α) : Option α :=
  match best with
  | none => some a
  | some b => if before a b then some a else some b

theorem best?_eq {α : Type} (pathOf : α → String) (path : String) (candidates : List α) :
    best? pathOf path candidates = (candidates.filter fun a => (ofPath (pathOf a)).isMatch path.toList).foldl
      (prefer fun a b => (ofPath (pathOf a)).isBefore (ofPath (pathOf b))) none := rfl

variable {α : Type} {before : α → α → Bool} {found : List α} {r : α}

theorem mem_of_foldl_prefer {start : Option α} (h : found.foldl (prefer before) start = some r) :
    start = some r ∨ r ∈ found := by
  induction found generalizing start with
  | nil => exact Or.inl h
  | cons a found ih =>
    rcases ih h with h | h
    · cases start with
      | none => exact Or.inr (Option.some.inj h ▸ List.mem_cons_self)
      | some b =>
        simp only [prefer] at h
        split at h
        · exact Or.inr (Option.some.inj h ▸ List.mem_cons_self)
        · exact Or.inl h
    · exact Or.inr (List.mem_cons_of_mem _ h)

/-- What comes before all others is chosen, wherever it stands. -/
theorem foldl_prefer_first (hself : before r r = false)
    (hfirst : ∀ a ∈ found, a ≠ r → before r a = true ∧ before a r = false) {start : Option α}
    (hstart : start = some r ∨ r ∈ found ∧ ∀ a ∈ start, a ≠ r → before r a = true) :
    found.foldl (prefer before) start = some r := by
  induction found generalizing start with
  | nil =>
    rcases hstart with rfl | ⟨hr, -⟩
    · rfl
    · cases hr
  | cons a found ih =>
    refine ih (fun b hb => hfirst b (List.mem_cons_of_mem _ hb)) ?_
    have ha := hfirst a List.mem_cons_self
    by_cases har : a = r
    · left
      subst har
      cases start with
      | none => rfl
      | some b =>
        by_cases hb : b = a
        · simp [prefer, hb]
        · rcases hstart with hstart | ⟨-, hstart⟩
          · exact absurd (Option.some.inj hstart) hb
          · simp [prefer, hstart b rfl hb]
    · rcases hstart with rfl | ⟨hr, hstart⟩
      · left
        simp [prefer, (ha har).2]
      · right
        refine ⟨(List.mem_cons.mp hr).resolve_left (Ne.symm har), ?_⟩
        cases start with
        | none => exact fun b hb _ => Option.mem_some.mp hb ▸ (ha har).1
        | some b =>
          intro b' hb' hne
          simp only [prefer] at hb'
          split at hb'
          · exact Option.mem_some.mp hb' ▸ (ha har).1
          · exact hstart b' hb' hne

/-- Among routes with different addresses, a request for an address without braces finds the
    route of this address. -/
theorem best?_self {routes : List Route} {r : Route} (hr : r ∈ routes)
    (hpaths : ∀ a ∈ routes, a.path = r.path → a = r) (hopen : '{' ∉ r.path.toList) (hclose : '}' ∉ r.path.toList) :
    best? Route.path r.path routes = some r := by
  have hliteral : ofPath r.path = r.path.toList.map .char := ofChars_of_plain (Nat.le_refl _) hopen hclose
  rw [best?_eq]
  apply foldl_prefer_first (r := r) (isBefore_self _)
  · intro a ha hne
    obtain ⟨ha, hmatch⟩ := List.mem_filter.mp ha
    rcases literal_before hmatch with hsame | hbefore
    · have htext := eq_of_ofChars (Nat.le_refl _) hopen hclose hsame
      exact absurd (hpaths a ha (String.toList_injective htext)) hne
    · rw [hliteral]
      exact hbefore
  · refine Or.inr ⟨List.mem_filter.mpr ⟨hr, ?_⟩, nofun⟩
    rw [hliteral, isMatch_literal]

theorem isMatch_of_best? {routes : List Route} {r : Route} {path : String} (h : best? Route.path path routes = some r) :
    (ofPath r.path).isMatch path.toList = true := by
  rw [best?_eq] at h
  rcases mem_of_foldl_prefer h with h | h
  · cases h
  · exact (List.mem_filter.mp h).2

end Pattern

/-! ## Requests -/

open Site in
/-- In a site that was opened, whatever happened since, the address of a route without braces
    is asked for in a well-formed target, with any query that is not too long. This request
    reaches the route exactly if no character of the address needs a percent code, and then
    the answer is the page, rendered with the address and the query, or its failure. -/
theorem encoded_address_reaches_iff {files₀ : FileTree} {config : Config} {firstRun : Nat} {s₀ : Site}
    (hw : files₀.WellFormed) (h : load files₀ config firstRun = .ok s₀) {r : Route} (hr : r ∈ s₀.routes)
    (hopen : '{' ∉ r.path.toList) (hclose : '}' ∉ r.path.toList) (earlier : List (FileTree × Event))
    {query : Option String}
    (hquery : ∀ q ∈ query, q.toList.all Target.isQueryChar = true)
    (hsize : (targetText (percentEncoded r.path) query).utf8ByteSize ≤ Target.maxBytes) :
    let s := s₀.after earlier
    let target : Target := ⟨percentEncoded r.path, query⟩
    Target.parse? (targetText (percentEncoded r.path) query) = some target ∧
      (Pattern.best? Route.path target.path s.routes = some r ↔ r.path.toList.all isPlainChar = true) ∧
      (r.path.toList.all isPlainChar = true → ∀ files : FileTree,
        let render := s.renderPage files r.source (pageData r (query.getD ""))
        answer s files "GET" target = (Response.ofResult render.1, render.2)) := by
  intro s target
  obtain ⟨pieces, hpieces, -⟩ := load_eq_ok h
  have happ := (locate_eq_ok hpieces).1
  have hroutes : s.routes = Route.discover files₀ config.appFolder config.entryFile :=
    (sameSetting_after s₀ earlier).routes.trans (routes_of_load h)
  have hmem : r ∈ s.routes := (sameSetting_after s₀ earlier).routes ▸ hr
  obtain ⟨dirs, hdirs, -, hspelled⟩ := Route.exists_dirs_of_mem hw happ (hroutes ▸ hmem)
  have hroot : r.path.toList.head? = some '/' := by
    rw [hspelled]
    simp [Route.address]
  -- an address leads back to its page, so it is that of one route
  have hpaths : ∀ a ∈ s.routes, a.path = r.path → a = r := by
    intro a ha hsame
    rw [hroutes] at ha hmem
    have hsource := Route.source_of_mem hw happ ha
    rw [hsame, ← Route.source_of_mem hw happ hmem] at hsource
    show Route.mk a.path a.source = r
    rw [hsame, hsource]
  have hreaches : r.path.toList.all isPlainChar = true → Pattern.best? Route.path target.path s.routes = some r := by
    intro hplain
    rw [show target.path = r.path from percentEncoded_eq_self_iff.mpr hplain]
    exact Pattern.best?_self hmem hpaths hopen hclose
  refine ⟨parse?_percentEncoded hroot hquery hsize, ⟨fun hfound => ?_, hreaches⟩, fun hplain files => ?_⟩
  · have hmatch := Pattern.isMatch_of_best? hfound
    rw [Pattern.ofPath, Pattern.ofChars_of_plain (Nat.le_refl _) hopen hclose, Pattern.isMatch_literal] at hmatch
    exact percentEncoded_eq_self_iff.mp (String.toList_injective hmatch).symm
  · unfold answer
    rw [hreaches hplain]
    rfl

/-- A page with a query. -/
theorem plain_address_reaches_page :
    let files : FileTree := { entries := [(["index.html"], .file (some "") 1), (["app"], .folder none),
      (["app", "page.goo"], .file (some "a") 1), (["app", "about-us"], .folder none),
      (["app", "about-us", "page.goo"], .file (some "b") 1)] }
    let about : Route := ⟨"/about-us", ⟨"./app/about-us/page.goo"⟩⟩
    let target : Target := ⟨"/about-us", some "name=%20&lang=de"⟩
    files.WellFormed ∧ ∃ s, Site.load files {} = .ok s ∧ about ∈ s.routes ∧
      '{' ∉ about.path.toList ∧ '}' ∉ about.path.toList ∧ (∀ q ∈ target.query, q.toList.all Target.isQueryChar = true) ∧
      (targetText (percentEncoded about.path) target.query).utf8ByteSize ≤ Target.maxBytes ∧
      Target.parse? "/about-us?name=%20&lang=de" = some target ∧
      ∀ now : FileTree, (answer s now "GET" target).1 =
        Response.ofResult (s.renderPage now about.source (pageData about "name=%20&lang=de")).1 := by
  intro files about target
  have hw : files.WellFormed := ⟨by decide +kernel, by decide +kernel, by decide +kernel⟩
  obtain ⟨s, hload⟩ := Site.exists_of_isOk (show (Site.load files {}).isOk = true by decide +kernel)
  have hr : about ∈ s.routes := by
    rw [Site.routes_of_load hload]
    exact Route.mem_discover.mpr ⟨about.source, by decide +kernel, by decide +kernel, by decide +kernel⟩
  have hopen : '{' ∉ about.path.toList := by decide +kernel
  have hclose : '}' ∉ about.path.toList := by decide +kernel
  have hquery : ∀ q ∈ target.query, q.toList.all Target.isQueryChar = true := by
    intro q hq
    cases hq
    decide +kernel
  have hsize : (targetText (percentEncoded about.path) target.query).utf8ByteSize ≤ Target.maxBytes := by decide +kernel
  obtain ⟨hparse, -, hanswer⟩ := encoded_address_reaches_iff hw hload hr hopen hclose [] hquery hsize
  have hplain : about.path.toList.all isPlainChar = true := by decide +kernel
  have hself : percentEncoded about.path = about.path := percentEncoded_eq_self_iff.mpr hplain
  rw [hself] at hparse hanswer
  exact ⟨hw, s, hload, hr, hopen, hclose, hquery, hsize, hparse, fun now => congrArg Prod.fst (hanswer hplain now)⟩

/-- The page in a folder with a space in its name has a route, and the request for it is not
    answered with a page. -/
theorem coded_address_not_found :
    let files : FileTree := { entries := [(["index.html"], .file (some "") 1), (["app"], .folder none),
      (["app", "page.goo"], .file (some "a") 1), (["app", "my page"], .folder none),
      (["app", "my page", "page.goo"], .file (some "b") 1)] }
    let spaced : Route := ⟨"/my page", ⟨"./app/my page/page.goo"⟩⟩
    files.WellFormed ∧ percentEncoded spaced.path = "/my%20page" ∧
      Target.parse? "/my%20page" = some ⟨"/my%20page", none⟩ ∧
      ∃ s, Site.load files {} = .ok s ∧ spaced ∈ s.routes ∧
        ∀ now : FileTree, (answer s now "GET" ⟨"/my%20page", none⟩).1 = Response.notFound := by
  intro files spaced
  have hw : files.WellFormed := ⟨by decide +kernel, by decide +kernel, by decide +kernel⟩
  obtain ⟨s, hload⟩ := Site.exists_of_isOk (show (Site.load files {}).isOk = true by decide +kernel)
  have hroutes : s.routes = [⟨"/", ⟨"./app/page.goo"⟩⟩, spaced] := by
    rw [Site.routes_of_load hload]
    exact Route.discover_of_listed (by decide +kernel) (by decide)
  have hnone : Pattern.best? Route.path "/my%20page" s.routes = none := by
    rw [hroutes]
    decide +kernel
  refine ⟨hw, by decide +kernel, by decide +kernel, s, hload, by simp [hroutes], fun now => ?_⟩
  unfold answer
  rw [hnone]

end ComponentSite.Http
