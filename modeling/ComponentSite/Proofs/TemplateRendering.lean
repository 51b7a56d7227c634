/-
  ComponentSite.Proofs.TemplateRendering — what the templates of a page give.

  A template of a page gives its characters and, in the place of each use and insertion
  point, what the template of that name gives, up to white space (`gives_of_shows`). The
  templates it names must give something with one unit of depth less; one that is not
  there gives nothing. Data has no part in it.
-/
import ComponentSite.Proofs.TemplateReading
import ComponentSite.Template.Render

namespace ComponentSite.Template
open Text

/-! ## Indents -/

theorem withoutBlanks_indented {indent : List Char} (h : indent.all isBlank = true) (s : List Char) :
    withoutBlanks (indented indent s) = withoutBlanks s := by
  have hindent : withoutBlanks indent = [] := by
    rw [withoutBlanks, List.filter_eq_nil_iff]
    intro c hc
    simp [List.all_eq_true.mp h c hc]
  induction s with
  | nil => rfl
  | cons c s ih =>
    unfold indented
    have hcons : ∀ t, withoutBlanks (c :: t) = withoutBlanks [c] ++ withoutBlanks t :=
      fun t => withoutBlanks_append [c] t
    split
    · rw [List.cons_append, hcons, hcons s, withoutBlanks_append, hindent, ih]
      rfl
    · rw [hcons, hcons s, ih]

def Env.Blank (env : Env) : Prop := env.indent.all isBlank = true

theorem Env.Blank.write {env : Env} (h : env.Blank) (s : List Char) :
    withoutBlanks (env.write s) = withoutBlanks s := by
  unfold Env.write
  split
  · rfl
  · exact withoutBlanks_indented h s

/-! ## Templates by name -/

/-- With this depth or more a template gives this text, up to white space, whatever uses it. -/
def Gives (registry : List (String × List Node)) (title : Option String) (nodes : List Node) (depth : Nat)
    (text : List Char) : Prop :=
  ∀ n, depth ≤ n → ∀ (env : Env) (st : State), env.registry = registry → env.Blank → st.inlines = [] →
    ∃ out st', renderTemplate n env title nodes st = .ok (out, st') ∧ withoutBlanks out = text

/-- The template of this name, if there is one, gives this text. -/
inductive Answers (registry : List (String × List Node)) (depth : Nat) (name : String) : List Char → Prop
  | found {n : String} {nodes : List Node} {text : List Char} : registry.find? (·.1 == name) = some (n, nodes) →
      Gives registry (some name) nodes depth text → Answers registry depth name text
  | missing : registry.find? (·.1 == name) = none → Answers registry depth name []

section Depth

variable {registry : List (String × List Node)} {depth depth' : Nat} {name : String} {text text' : List Char}

theorem Answers.mono (h : Answers registry depth name text) (hle : depth ≤ depth') :
    Answers registry depth' name text := by
  cases h with
  | found hf hgives => exact .found hf fun n hn => hgives n (Nat.le_trans hle hn)
  | missing hf => exact .missing hf

theorem Gives.unique {title : Option String} {nodes : List Node} (h : Gives registry title nodes depth text)
    (h' : Gives registry title nodes depth' text') : text = text' := by
  let env : Env := ⟨.null, registry, [], [], 0, [], true⟩
  obtain ⟨out, st, hout, rfl⟩ := h (max depth depth') (Nat.le_max_left ..) env ⟨[], none⟩ rfl rfl rfl
  obtain ⟨out', st', hout', rfl⟩ := h' (max depth depth') (Nat.le_max_right ..) env ⟨[], none⟩ rfl rfl rfl
  rw [hout] at hout'
  cases hout'
  rfl

theorem Answers.unique (h : Answers registry depth name text) (h' : Answers registry depth' name text') :
    text = text' := by
  cases h with
  | found hf hgives =>
    cases h' with
    | found hf' hgives' =>
      rw [hf] at hf'
      cases hf'
      exact hgives.unique hgives'
    | missing hf' => cases hf.symm.trans hf'
  | missing hf =>
    cases h' with
    | found hf' => cases hf.symm.trans hf'
    | missing => rfl

theorem exists_meaning (registry : List (String × List Node)) :
    ∃ meaning : String → List Char, ∀ name depth text, Answers registry depth name text → meaning name = text := by
  have hone : ∀ name, ∃ given : List Char, ∀ depth text, Answers registry depth name text → given = text := by
    intro name
    by_cases h : ∃ depth text, Answers registry depth name text
    · obtain ⟨depth, given, hgiven⟩ := h
      exact ⟨given, fun _ _ h => hgiven.unique h⟩
    · exact ⟨[], fun depth text h' => absurd ⟨depth, text, h'⟩ h⟩
  exact ⟨fun name => (hone name).choose, fun name => (hone name).choose_spec⟩

end Depth

section Use

variable {registry : List (String × List Node)} {depth n : Nat} {name : String}
    {text : List Char} {env : Env} {st : State}

def Env.inside (env : Env) (name : String) (indent : List Char) (body : Option (List Node)) : Env :=
  { env with
    bodies := body.toList ++ env.bodies
    outward := if name == bodyName then env.outward + 1 else env.outward - 1
    indent }

/-- A use that gives no templates of its own. -/
theorem renderPartial_nameCall (below : Below) (hcurrent : st.current ≠ some name) (indent : List Char)
    {body : Option (List Node)} (hbody : body.all List.isEmpty = true) :
    renderPartial below env (nameCall name) indent body st =
      match findTemplate? env st name body with
      | none => .ok ([], st)
      | some (title, nodes) => (below (env.inside name indent body) title nodes st).map fun (out, _) => (out, st) := by
  have hcur : (st.current == some name) = false := by simpa using hcurrent
  have hused : usedScopes env [] [] = .ok env.scopes := rfl
  have hdefine : ∀ nodes ∈ body, defineAll env nodes st = .ok st := by
    rintro nodes rfl
    rw [List.isEmpty_iff.mp (show nodes.isEmpty = true from hbody)]
    rfl
  unfold renderPartial
  simp only [nameCall, nameOf, expandAll, expandNamed, bind, Except.bind]
  cases body with
  | none =>
    simp only [hcur, Bool.false_eq_true, if_false]
    rcases findTemplate? env st name none with _ | ⟨title, nodes⟩
    · rfl
    · simp only [hused, Env.inside]
      split
      · rename_i e
        rw [e]
        rfl
      · rename_i e
        rw [e]
        rfl
  | some given =>
    simp only [hdefine given rfl, hcur, Bool.false_eq_true, if_false]
    rcases findTemplate? env st name (some given) with _ | ⟨title, nodes⟩
    · rfl
    · simp only [hused, Env.inside]
      split
      · rename_i e
        rw [e]
        rfl
      · rename_i e
        rw [e]
        rfl

section Named

variable (hname : name ≠ bodyName) (hinlines : st.inlines = []) (hcurrent : st.current ≠ some name)
  {body : Option (List Node)} (hbody : body.all List.isEmpty = true) (indent : List Char)
include hname hinlines

theorem findTemplate?_of_registry (body : Option (List Node)) : findTemplate? env st name body =
    ((env.registry.find? (·.1 == name)).map fun t => (some name, t.2)).or (body.map (none, ·)) := by
  have hb : (name == bodyName) = false := by simpa using hname
  unfold findTemplate?
  simp only [hb, hinlines, Bool.false_eq_true, if_false, List.find?_nil, Option.map_none]
  cases env.registry.find? (·.1 == name) <;> rfl

include hcurrent hbody

theorem renderPartial_found (below : Below) {t : String × List Node}
    (hfind : env.registry.find? (·.1 == name) = some t) :
    renderPartial below env (nameCall name) indent body st =
      (below (env.inside name indent body) (some name) t.2 st).map fun (out, _) => (out, st) := by
  rw [renderPartial_nameCall below hcurrent indent hbody, findTemplate?_of_registry hname hinlines, hfind]
  rfl

theorem renderPartial_missing (hn : 1 ≤ n) (hfind : env.registry.find? (·.1 == name) = none) :
    renderPartial (renderTemplate n) env (nameCall name) indent body st = .ok ([], st) := by
  rw [renderPartial_nameCall _ hcurrent indent hbody, findTemplate?_of_registry hname hinlines, hfind]
  cases body with
  | none => rfl
  | some nodes =>
    obtain ⟨n, rfl⟩ : ∃ m, n = m + 1 := ⟨n - 1, by omega⟩
    rw [List.isEmpty_iff.mp (show nodes.isEmpty = true from hbody)]
    rfl

end Named

theorem renderPartial_answers (h : Answers registry depth name text) (hdepth : 1 ≤ depth) (hn : depth ≤ n)
    (hname : name ≠ bodyName) (hregistry : env.registry = registry) (hcurrent : st.current ≠ some name)
    (hinlines : st.inlines = []) {indent : List Char} (hindent : indent.all isBlank = true) {body : Option (List Node)}
    (hbody : body.all List.isEmpty = true) :
    ∃ out, renderPartial (renderTemplate n) env (nameCall name) indent body st = .ok (out, st) ∧
      withoutBlanks out = text := by
  subst hregistry
  cases h with
  | found hf hgives =>
    obtain ⟨out, st', hout, hblanks⟩ := hgives n hn (env.inside name indent body) st rfl hindent hinlines
    rw [renderPartial_found hname hinlines hcurrent hbody indent _ hf, hout]
    exact ⟨out, rfl, hblanks⟩
  | missing hf =>
    rw [renderPartial_missing hname hinlines hcurrent hbody indent (Nat.le_trans hdepth hn) hf]
    exact ⟨[], rfl, rfl⟩

end Use

/-! ## Nodes -/

/-- What a token gives, up to white space, with these texts for the names. -/
def Token.gives (meaning : String → List Char) : Token → List Char
  | .char c => withoutBlanks [c]
  | .use name => meaning name
  | .point name => meaning name

theorem flatMap_inked (meaning : String → List Char) (ts : List Token) :
    (Token.inked ts).flatMap (Token.gives meaning) = ts.flatMap (Token.gives meaning) := by
  induction ts with
  | nil => rfl
  | cons t ts ih =>
    have hcut : Token.inked (t :: ts) = if t.isBlank then Token.inked ts else t :: Token.inked ts := by
      cases h : t.isBlank <;> simp [Token.inked, h]
    rw [hcut, List.flatMap_cons]
    split
    · rename_i h
      have : t.gives meaning = [] := by
        cases t with
        | char c => exact withoutBlanks_cons h []
        | use => cases h
        | point => cases h
      rw [this, ih, List.nil_append]
    · rw [List.flatMap_cons, ih]

theorem flatMap_chars (meaning : String → List Char) (s : List Char) :
    (s.map .char).flatMap (Token.gives meaning) = withoutBlanks s := by
  rw [List.flatMap_map]
  exact flatMap_withoutBlanks s

/-- The template of this name is shown by one of these tokens. -/
def Names (ts : List Token) (name : String) : Prop := .use name ∈ ts ∨ .point name ∈ ts

theorem Names.of_shows {nodes : List Node} {ts : List Token} (h : Shows nodes ts) {name : String}
    (hn : Names (nodes.flatMap Node.tokens) name) : Names ts name := by
  have mem : ∀ t : Token, t.isBlank = false → t ∈ nodes.flatMap Node.tokens → t ∈ ts := by
    intro t ht hmem
    have : t ∈ Token.inked (nodes.flatMap Node.tokens) := List.mem_filter.mpr ⟨hmem, by simp [ht]⟩
    rw [h.tokens] at this
    exact List.mem_of_mem_filter this
  exact hn.imp (mem _ rfl) (mem _ rfl)

section Nodes

variable {registry : List (String × List Node)} {depth n : Nat} {meaning : String → List Char}

/-- The nodes of a template give what their tokens do, and change nothing. -/
theorem renderNodes_parts {env : Env} {st : State} (hdepth : 1 ≤ depth) (hn : depth ≤ n)
    (hregistry : env.registry = registry)
    (hblank : env.Blank) (hinlines : st.inlines = []) {nodes : List Node} (hparts : ∀ node ∈ nodes, node.IsPart)
    (hnames : ∀ name, Names (nodes.flatMap Node.tokens) name →
      name ≠ bodyName ∧ st.current ≠ some name ∧ Answers registry depth name (meaning name)) :
    ∃ out, renderNodes (renderTemplate n) env nodes st = .ok (out, st) ∧
      withoutBlanks out = (nodes.flatMap Node.tokens).flatMap (Token.gives meaning) := by
  induction nodes with
  | nil => exact ⟨[], rfl, rfl⟩
  | cons node rest ih =>
    have hrest : ∀ name, Names (rest.flatMap Node.tokens) name → Names ((node :: rest).flatMap Node.tokens) name := by
      intro name hname
      rw [List.flatMap_cons]
      exact hname.imp (List.mem_append_right _) (List.mem_append_right _)
    obtain ⟨more, hmore, hmoreBlanks⟩ := ih (fun m hm => hparts m (List.mem_cons_of_mem _ hm)) fun name hname =>
      hnames name (hrest name hname)
    have hnode : ∃ out, renderNode (renderTemplate n) env node st = .ok (out, st) ∧
        withoutBlanks out = node.tokens.flatMap (Token.gives meaning) := by
      have hpart := hparts node List.mem_cons_self
      cases node with
      | text s => exact ⟨_, rfl, by rw [hblank.write, Node.tokens, flatMap_chars]⟩
      | partialUse call indent body =>
        obtain ⟨hcall, hindent, hbody⟩ := hpart
        have hmem : Names ((Node.partialUse call indent body :: rest).flatMap Node.tokens) call.name.text := by
          rw [List.flatMap_cons]
          cases body with
          | none => exact Or.inl (List.mem_append_left _ List.mem_cons_self)
          | some nodes => exact Or.inr (List.mem_append_left _ List.mem_cons_self)
        obtain ⟨hname, hcurrent, hanswers⟩ := hnames _ hmem
        obtain ⟨out, hout, hblanks⟩ :=
          renderPartial_answers hanswers hdepth hn hname hregistry hcurrent hinlines hindent hbody
        refine ⟨out, ?_, ?_⟩
        · rw [← hcall] at hout
          exact hout
        · rw [hblanks]
          cases body <;> exact (List.append_nil _).symm
      | comment => exact hpart.elim
      | value => exact hpart.elim
      | block => exact hpart.elim
      | decorator => exact hpart.elim
    obtain ⟨out, hout, hblanks⟩ := hnode
    refine ⟨out ++ more, ?_, ?_⟩
    · rw [renderNodes, hout]
      simp only [bind, Except.bind, hmore]
      rfl
    · rw [withoutBlanks_append, hblanks, hmoreBlanks, List.flatMap_cons, List.flatMap_append]

/-- A template gives its characters and what the templates do that it names. -/
theorem gives_of_shows {title : Option String} {nodes : List Node} {ts : List Token} (h : Shows nodes ts)
    (hdepth : 1 ≤ depth) (hnames : ∀ name, Names ts name →
      name ≠ bodyName ∧ title ≠ some name ∧ Answers registry depth name (meaning name)) :
    Gives registry title nodes (depth + 1) (ts.flatMap (Token.gives meaning)) := by
  intro n hn env st hregistry hblank hinlines
  obtain ⟨n, rfl⟩ : ∃ m, n = m + 1 := ⟨n - 1, by omega⟩
  have hinside : ({ st with current := title } : State).inlines = [] := hinlines
  obtain ⟨out, hout, hblanks⟩ := renderNodes_parts hdepth (Nat.le_of_succ_le_succ hn) hregistry hblank hinside h.parts
    fun name hname => hnames name (hname.of_shows h)
  refine ⟨out, _, hout, ?_⟩
  rw [hblanks, ← flatMap_inked, h.tokens, flatMap_inked]

theorem renderTemplate_raw (n : Nat) (env : Env) (title : Option String) (text : List Char) (st : State) :
    renderTemplate (n + 2) env title [.block (nameCall "raw") (some [.text text]) none] st =
      .ok (env.write text, { st with current := none }) := by
  have hblock : renderHelper (renderTemplate (n + 1)) env (nameCall "raw") (some [.text text]) none
      { st with current := title } = .ok (env.write text ++ [], { st with current := none }) := by
    unfold renderHelper
    simp only [nameCall, nameOf, expandAll, expandNamed, bind, Except.bind]
    rfl
  rw [renderTemplate, renderNodes, renderNode, hblock, List.append_nil]
  show Except.ok (env.write text ++ [], _) = _
  rw [List.append_nil]

theorem gives_raw {title : Option String} (text : List Char) :
    Gives registry title [.block (nameCall "raw") (some [.text text]) none] 2 (withoutBlanks text) := by
  intro n hn env st hregistry hblank hinlines
  obtain ⟨n, rfl⟩ : ∃ m, n = m + 2 := ⟨n - 2, by omega⟩
  exact ⟨_, _, renderTemplate_raw n env title text st, hblank.write text⟩

end Nodes

/-! ## Depth -/

def Token.isName : Token → Bool
  | .char _ => false
  | _ => true

theorem le_sizeList {nodes : List Node} {ts : List Token} (h : Shows nodes ts) :
    ts.countP Token.isName ≤ Node.sizeList nodes := by
  have hinked : ∀ us : List Token, (Token.inked us).countP Token.isName = us.countP Token.isName := fun us => by
    rw [Token.inked, List.countP_filter]
    congr 1
    funext t
    cases t <;> simp [Token.isName, Token.isBlank]
  have hnode : ∀ n : Node, n.tokens.countP Token.isName ≤ n.size := by
    intro n
    cases n with
    | text s => simp [Node.tokens, List.countP_map, Token.isName, Function.comp_def]
    | partialUse call indent body => cases body <;> simp [Node.tokens, Token.isName, Node.size]
    | _ => simp [Node.tokens]
  rw [← hinked ts, ← h.tokens, hinked]
  clear h
  induction nodes with
  | nil => exact Nat.zero_le _
  | cons n nodes ih =>
    rw [List.flatMap_cons, List.countP_append, Node.sizeList]
    exact Nat.add_le_add (hnode n) ih

theorem le_maxNesting {registry : List (String × List Node)} {name : String} {nodes : List Node}
    (h : (name, nodes) ∈ registry) (data : Value) : 2 * (Node.sizeList nodes + 2) ≤ maxNesting registry data := by
  have hfold : ∀ (l : List (String × List Node)) (k : Nat), (name, nodes) ∈ l ∨ Node.sizeList nodes + 2 ≤ k →
      2 ≤ k → Node.sizeList nodes + 2 ≤ l.foldl (fun n t => n + Node.sizeList t.2) k := by
    intro l
    induction l with
    | nil =>
      intro k hk _
      exact hk.resolve_left List.not_mem_nil
    | cons t l ih =>
      intro k hk h2
      obtain ⟨name', nodes'⟩ := t
      rw [List.foldl_cons]
      refine ih (k + Node.sizeList nodes') ?_ (by omega)
      rcases hk with hk | hk
      · rcases List.mem_cons.mp hk with e | hk
        · cases e
          exact Or.inr (by omega)
        · exact Or.inl hk
      · exact Or.inr (by omega)
  unfold maxNesting
  rw [Nat.mul_comm]
  exact Nat.mul_le_mul (hfold registry 2 (Or.inl h) (Nat.le_refl 2)) (by omega)

/-- What a template gives a page does, whatever its data. -/
theorem render_gives {registry : List (String × List Node)} {entry : String} {nodes : List Node} {depth : Nat}
    {text : List Char} (h : Gives registry (some entry) nodes depth text) (data : Value)
    (hdepth : depth ≤ maxNesting registry data) :
    ∃ out, render registry entry nodes data = .ok out ∧ withoutBlanks out.toList = text := by
  obtain ⟨out, st', hout, hblanks⟩ := h (maxNesting registry data) hdepth
    { data, registry, scopes := [{}], bodies := [], outward := 0, indent := [], escaped := true } ⟨[], none⟩ rfl rfl rfl
  refine ⟨String.ofList out, ?_, by rw [String.toList_ofList, hblanks]⟩
  unfold render
  simp only [hout]
  rfl

end ComponentSite.Template
