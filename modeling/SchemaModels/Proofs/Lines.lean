import SchemaModels.Proofs.Outline

/-! Lines and pieces of module text. A module is cut into pieces at each run of three line ends. The
header and the text of every declaration are made of lines that are not empty, so none of them holds
such a run or ends in one, and the pieces of a module are just these texts. -/

namespace SchemaModels
set_option autoImplicit false

/-! ## Pieces -/

/-- Puts a text before the first of some pieces. -/
def glue (front : List Char) : List (List Char) → List (List Char)
  | [] => [front]
  | piece :: rest => (front ++ piece) :: rest

/-- Cuts a text at each occurrence of three line ends in a row, from the left. -/
def pieces : List Char → List (List Char)
  | [] => [[]]
  | '\n' :: '\n' :: '\n' :: cs => [] :: pieces cs
  | c :: cs => glue [c] (pieces cs)

theorem glue_glue (front middle : List Char) (ps : List (List Char)) :
    glue front (glue middle ps) = glue (front ++ middle) ps := by
  cases ps with
  | nil => rfl
  | cons p ps => simp [glue]

theorem pieces_ne_nil (cs : List Char) : pieces cs ≠ [] := by
  unfold pieces
  split
  · exact List.cons_ne_nil _ _
  · exact List.cons_ne_nil _ _
  · next c cs _ => cases pieces cs <;> exact List.cons_ne_nil _ _

theorem glue_nil (cs : List Char) : glue [] (pieces cs) = pieces cs := by
  cases h : pieces cs with
  | nil => exact absurd h (pieces_ne_nil cs)
  | cons p ps => rfl

theorem pieces_char {c : Char} (h : c ≠ '\n') (cs : List Char) : pieces (c :: cs) = glue [c] (pieces cs) := by
  rw [pieces]
  exact fun _ he => absurd he h

theorem pieces_lineEnd {c : Char} (h : c ≠ '\n') (cs : List Char) :
    pieces ('\n' :: c :: cs) = glue ['\n'] (pieces (c :: cs)) := by
  rw [pieces]
  exact fun _ _ he => absurd (List.cons.inj he).1 h

theorem pieces_line {line : List Char} (h : '\n' ∉ line) (rest : List Char) :
    pieces (line ++ rest) = glue line (pieces rest) := by
  induction line with
  | nil => exact (glue_nil rest).symm
  | cons c line ih =>
    rw [List.mem_cons, not_or] at h
    rw [List.cons_append, pieces_char (Ne.symm h.1), ih h.2, glue_glue, List.singleton_append]

/-- A text of one or more lines, none of them empty. -/
def Solid (cs : List Char) : Prop :=
  ∃ lines : List (List Char), lines ≠ [] ∧ (∀ l ∈ lines, l ≠ [] ∧ '\n' ∉ l) ∧ cs = ['\n'].intercalate lines

/-- No cut falls into a solid text or at its end. -/
theorem pieces_solid {cs : List Char} (h : Solid cs) (rest : List Char) :
    pieces (cs ++ rest) = glue cs (pieces rest) := by
  obtain ⟨lines, hne, hlines, rfl⟩ := h
  induction lines with
  | nil => exact absurd rfl hne
  | cons line lines ih =>
    obtain ⟨⟨-, hline⟩, hmore⟩ := List.forall_mem_cons.mp hlines
    cases lines with
    | nil => simpa using pieces_line hline rest
    | cons next lines =>
      have htail := ih (List.cons_ne_nil _ _) hmore
      obtain ⟨hnext, hnewline⟩ := hmore next List.mem_cons_self
      -- after a line end comes the first character of a line, so no cut starts there
      have hstart : ∃ c cs, ['\n'].intercalate (next :: lines) = c :: cs ∧ c ≠ '\n' := by
        cases next with
        | nil => exact absurd rfl hnext
        | cons c next =>
          have hc : c ≠ '\n' := fun he => hnewline (he ▸ List.mem_cons_self)
          cases lines with
          | nil => exact ⟨c, next, by simp, hc⟩
          | cons l ls => exact ⟨c, _, by rw [List.intercalate_cons_cons]; rfl, hc⟩
      obtain ⟨c, cs, hcons, hc⟩ := hstart
      rw [List.intercalate_cons_cons, List.append_assoc, List.append_assoc, pieces_line hline, List.singleton_append,
        hcons, List.cons_append, pieces_lineEnd hc, ← List.cons_append, ← hcons, htail, glue_glue, glue_glue,
        List.append_assoc]

/-- Solid texts with the separator between them are the pieces of what they make up. -/
theorem pieces_intercalate {ps : List (List Char)} (hne : ps ≠ []) (h : ∀ p ∈ ps, Solid p) :
    pieces (Outline.separator.toList.intercalate ps) = ps := by
  induction ps with
  | nil => exact absurd rfl hne
  | cons p ps ih =>
    obtain ⟨hp, hps⟩ := List.forall_mem_cons.mp h
    cases ps with
    | nil =>
      have hend := pieces_solid hp []
      rw [List.append_nil] at hend
      rw [List.intercalate_singleton, hend]
      simp [pieces, glue]
    | cons q ps =>
      have hcut : ∀ rest, pieces (Outline.separator.toList ++ rest) = [] :: pieces rest := fun _ => rfl
      rw [List.intercalate_cons_cons, List.append_assoc, pieces_solid hp, hcut, ih (List.cons_ne_nil _ _) hps]
      simp [glue]

/-! ## Texts of one line -/

def OneLine (text : String) : Prop :=
  '\n' ∉ text.toList

instance (text : String) : Decidable (OneLine text) :=
  inferInstanceAs (Decidable (¬ _))

theorem oneLine_append {a b : String} : OneLine (a ++ b) ↔ OneLine a ∧ OneLine b := by
  rw [OneLine, String.toList_append, List.mem_append, not_or]
  rfl

theorem oneLine_intercalate {sep : String} (hsep : OneLine sep) {texts : List String}
    (h : ∀ text ∈ texts, OneLine text) : OneLine (sep.intercalate texts) := by
  rw [OneLine, String.toList_intercalate]
  induction texts with
  | nil => simp
  | cons text texts ih =>
    obtain ⟨htext, hmore⟩ := List.forall_mem_cons.mp h
    cases texts with
    | nil => simpa [OneLine] using htext
    | cons next texts =>
      rw [List.map_cons, List.map_cons, List.intercalate_cons_cons, List.mem_append, List.mem_append, not_or, not_or]
      exact ⟨⟨htext, hsep⟩, ih hmore⟩

theorem ValidName.oneLine {name : String} (h : ValidName name) : OneLine name :=
  h.not_mem (by decide)

/-- Lines that are not empty, one under the other, make a solid text. -/
theorem solid_intercalate {lines : List String} (hne : lines ≠ []) (h : ∀ l ∈ lines, l ≠ "" ∧ OneLine l) :
    Solid ("\n".intercalate lines).toList := by
  refine ⟨lines.map String.toList, List.map_eq_nil_iff.not.mpr hne, ?_, String.toList_intercalate⟩
  rw [List.forall_mem_map]
  exact fun l hl => ⟨fun he => (h l hl).1 (String.toList_eq_nil_iff.mp he), (h l hl).2⟩

theorem solid_line {text : String} (hne : text ≠ "") (h : OneLine text) : Solid text.toList := by
  have hsolid := solid_intercalate (List.cons_ne_nil text []) (List.forall_mem_singleton.mpr ⟨hne, h⟩)
  rwa [String.intercalate_singleton] at hsolid

namespace TypeHint

theorem oneLine_stripOptional {text : String} (h : OneLine text) : OneLine (stripOptional text) := by
  unfold stripOptional
  split
  · next inner hinner =>
    unfold insideOptional? at hinner
    split at hinner
    · dsimp only at hinner
      split at hinner
      · cases hinner
        rw [OneLine, String.toList_ofList]
        exact fun hmem => h (List.mem_of_mem_drop ((List.dropLast_sublist _).subset hmem))
      · cases hinner
    · cases hinner
  · exact h

theorem oneLine_unquote {text : String} (h : OneLine text) : OneLine (unquote text) := by
  rw [OneLine, unquote, String.toList_ofList]
  exact fun hmem => h (List.mem_filter.mp hmem).1

end TypeHint

/-- The targets of a table are of one line. -/
def ScalarTable.OneLineTargets (table : ScalarTable) : Prop :=
  ∀ name target, table.get? name = some target → OneLine target.identity

section Texts

variable {table : ScalarTable}

theorem TypeHint.oneLine_named (ht : table.OneLineTargets) {name : String} (hname : ValidName name) :
    OneLine (named table name).text := by
  unfold named
  split
  · decide
  · next text hget =>
    exact oneLine_append.mpr ⟨oneLine_append.mpr ⟨by decide, ht name _ hget⟩, by decide⟩
  · exact oneLine_append.mpr ⟨oneLine_append.mpr ⟨by decide, hname.oneLine⟩, by decide⟩

theorem TypeHint.oneLine_ofType (ht : table.OneLineTargets) {room : Nat} {type : TypeExpr}
    (h : type.WellFormed room) : OneLine (ofType table type).text := by
  induction h with
  | named hname => exact oneLine_named ht hname
  | list _ ih => exact oneLine_append.mpr ⟨oneLine_append.mpr ⟨by decide, ih⟩, by decide⟩
  | nonNull _ _ ih => exact oneLine_stripOptional ih

theorem Declaration.oneLine_baseName (ht : table.OneLineTargets) {interface : String} (h : ValidName interface) :
    OneLine (baseName table interface) :=
  TypeHint.oneLine_unquote (TypeHint.oneLine_stripOptional (TypeHint.oneLine_named ht h))

/-- An indented text is not empty, and of one line if what is indented is. -/
theorem indented_line {text : String} (h : OneLine text) : indent ++ text ≠ "" ∧ OneLine (indent ++ text) :=
  ⟨by simp [indent], oneLine_append.mpr ⟨by decide, h⟩⟩

theorem Attribute.line_lineFor {name hint : String} (hname : OneLine name) (hhint : OneLine hint) :
    lineFor name hint ≠ "" ∧ OneLine (lineFor name hint) := by
  unfold lineFor aliasedName
  split
  · simp only [String.append_assoc]
    refine indented_line ?_
    simp only [oneLine_append]
    exact ⟨hname, by decide, by decide, hhint, by decide, hname, by decide⟩
  · simp only [String.append_assoc]
    refine indented_line ?_
    simp only [oneLine_append]
    exact ⟨hname, by decide, hhint⟩

theorem Declaration.solid_classText {name bases : String} {lines : List String} (hname : OneLine name)
    (hbases : OneLine bases) (hlines : ∀ l ∈ lines, l ≠ "" ∧ OneLine l) :
    Solid (classText name bases lines).toList := by
  have hsolid : ∀ body : List String, body ≠ [] → (∀ l ∈ body, l ≠ "" ∧ OneLine l) →
      Solid ("class " ++ name ++ "(" ++ bases ++ "):\n" ++ "\n".intercalate body).toList := by
    intro body hne hbody
    have hcut : "class " ++ name ++ "(" ++ bases ++ "):\n" ++ "\n".intercalate body =
        "\n".intercalate (("class " ++ name ++ "(" ++ bases ++ "):") :: body) := by
      rw [String.intercalate_cons_of_ne_nil hne]
      simp only [String.append_assoc]
      rfl
    rw [hcut]
    refine solid_intercalate (List.cons_ne_nil _ _) (List.forall_mem_cons.mpr ⟨⟨by simp, ?_⟩, hbody⟩)
    simp only [oneLine_append]
    exact ⟨⟨⟨⟨by decide, hname⟩, by decide⟩, hbases⟩, by decide⟩
  unfold classText
  split
  · have hpass : indent ++ "pass" = "\n".intercalate [indent ++ "pass"] := by rw [String.intercalate_singleton]
    rw [hpass]
    exact hsolid _ (List.cons_ne_nil _ _) (List.forall_mem_singleton.mpr (indented_line (by decide)))
  · next hempty => exact hsolid lines (by simpa using hempty) hlines

/-! ## Declarations -/

/-- The lines of a class that lists fields. -/
theorem Attribute.lines_ofField (ht : table.OneLineTargets) {α : Type} {fields : List α} {name : α → String}
    {type : α → TypeExpr} {room : Nat} (h : ∀ f ∈ fields, ValidName (name f) ∧ (type f).WellFormed room) :
    ∀ l ∈ (fields.map fun f => ofField table (name f) (type f)).map (·.line), l ≠ "" ∧ OneLine l := by
  simp only [List.map_map, List.forall_mem_map]
  intro f hf
  exact line_lineFor (h f hf).1.oneLine (TypeHint.oneLine_ofType ht (h f hf).2)

theorem Declaration.solid_make {identity text : String} {dependencies supertypes : List String}
    (h : Solid text.toList) : Solid (make identity text dependencies supertypes).text.toList := by
  rw [(make_fields identity text dependencies supertypes).2.1]
  exact h

/-- The text of every declaration is solid. -/
theorem Definition.solid_declaration? (ht : table.OneLineTargets) {style : EnumStyle} {room : Nat}
    {definition : Definition} (hwell : definition.WellFormed room) {d : Declaration}
    (h : definition.declaration? table style = some d) : Solid d.text.toList := by
  cases definition with
  | object o =>
    cases h
    refine Declaration.solid_make (Declaration.solid_classText hwell.name.oneLine ?_ ?_)
    · split
      · decide
      · refine oneLine_intercalate (by decide) (List.forall_mem_map.mpr fun i hi => ?_)
        exact Declaration.oneLine_baseName ht (hwell.interfaces i hi)
    · exact Attribute.lines_ofField ht fun f hf => ⟨(hwell.fields f hf).name, (hwell.fields f hf).type⟩
  | interface o =>
    cases h
    refine Declaration.solid_make (Declaration.solid_classText hwell.name.oneLine (by decide) ?_)
    exact Attribute.lines_ofField ht fun f hf => ⟨(hwell.fields f hf).name, (hwell.fields f hf).type⟩
  | input o =>
    cases h
    refine Declaration.solid_make (Declaration.solid_classText hwell.name.oneLine (by decide) ?_)
    exact Attribute.lines_ofField ht fun f hf => ⟨(hwell.fields f hf).name, (hwell.fields f hf).type⟩
  | enum o =>
    cases h
    refine Declaration.solid_make (Declaration.solid_classText hwell.name.oneLine ?_ ?_)
    · cases style <;> decide
    · rw [List.forall_mem_map]
      intro v hv
      have hname := (hwell.values v hv).name.oneLine
      simp only [Declaration.enumLine, String.append_assoc]
      refine indented_line ?_
      simp only [oneLine_append]
      exact ⟨hname, by decide, hname, by decide⟩
  | union u =>
    cases h
    refine Declaration.solid_make (solid_line ?_ ?_)
    · simp
    · simp only [oneLine_append]
      refine ⟨⟨⟨hwell.name.oneLine, by decide⟩, oneLine_intercalate (by decide) ?_⟩, by decide⟩
      simp only [List.map_map, List.forall_mem_map]
      exact fun m hm => TypeHint.oneLine_stripOptional (TypeHint.oneLine_named ht (hwell.members m hm))
  | _ => cases h

end Texts

/-! ## The header -/

theorem Imports.line_headerLines (i : Imports) (style : EnumStyle) :
    ∀ l ∈ i.headerLines style, l ≠ "" ∧ OneLine l := by
  have hname : ∀ (needed : Bool) {name : String}, OneLine name →
      ∀ n ∈ (if needed then [name] else []), OneLine n := by
    intro needed name h
    cases needed with
    | false => exact List.forall_mem_nil _
    | true => exact List.forall_mem_singleton.mpr h
  have htyping : ∀ name ∈ i.typingNames, OneLine name := by
    simp only [typingNames, List.forall_mem_append]
    exact ⟨⟨⟨hname _ (by decide), hname _ (by decide)⟩, hname _ (by decide)⟩, hname _ (by decide)⟩
  simp only [headerLines, List.forall_mem_append]
  refine ⟨⟨?_, ?_⟩, ?_⟩
  · split
    · exact List.forall_mem_singleton.mpr (by cases style <;> decide)
    · exact List.forall_mem_nil _
  · split
    · exact List.forall_mem_nil _
    · refine List.forall_mem_singleton.mpr ⟨by simp, ?_⟩
      exact oneLine_append.mpr ⟨by decide, oneLine_intercalate (by decide) htyping⟩
  · refine List.forall_mem_singleton.mpr ?_
    split <;> decide

theorem Imports.headerLines_ne_nil (i : Imports) (style : EnumStyle) : i.headerLines style ≠ [] := by
  simp [headerLines]

theorem Imports.solid_header (i : Imports) (style : EnumStyle) : Solid (i.header style).toList :=
  solid_intercalate (i.headerLines_ne_nil style) (i.line_headerLines style)

end SchemaModels
