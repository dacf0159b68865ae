import SchemaModels.Proofs.WellFormed

/-! Printing documents. The canonical text of a document spells its parts token by token with blanks
between them: keywords, names and numbers as they are, strings in quotes, and no brackets around
nothing. The tokens of a well-formed document are those that are read from their spellings. -/

namespace SchemaModels
set_option autoImplicit false

/-! ## Tokens of the parts -/

def describe : Option String → List Token
  | none => []
  | some text => [.string text]

/-- Parts in brackets; nothing where there are no parts. -/
def enclosed {α : Type} (openToken close : Token) (spell : α → List Token) : List α → List Token
  | [] => []
  | a :: as => openToken :: (a :: as).flatMap spell ++ [close]

/-- Names with a mark between them. -/
def joined (mark : Token) : List String → List Token
  | [] => []
  | name :: names => .name name :: names.flatMap fun other => [mark, .name other]

/-- Names with a mark between them behind an announcing token; nothing where there are no names. -/
def announced (announce mark : Token) : List String → List Token
  | [] => []
  | name :: names => announce :: joined mark (name :: names)

def TypeExpr.tokens : TypeExpr → List Token
  | named name => [.name name]
  | list item => .bracketOpen :: item.tokens ++ [.bracketClose]
  | nonNull inner => inner.tokens ++ [.bang]

mutual

def Value.tokens : Value → List Token
  | .var name => [.dollar, .name name]
  | .int text => [.int text]
  | .float text => [.float text]
  | .string value => [.string value]
  | .boolean value => [.name (if value then "true" else "false")]
  | .null => [.name "null"]
  | .enum name => [.name name]
  | .list items => .bracketOpen :: itemTokens items ++ [.bracketClose]
  | .object entries => .braceOpen :: entryTokens entries ++ [.braceClose]

def itemTokens : List Value → List Token
  | [] => []
  | item :: items => item.tokens ++ itemTokens items

def entryTokens : List (String × Value) → List Token
  | [] => []
  | (key, value) :: entries => .name key :: .colon :: value.tokens ++ entryTokens entries

end

/-- A name, a colon and a value. -/
def argumentTokens (argument : String × Value) : List Token :=
  .name argument.1 :: .colon :: argument.2.tokens

/-- A use of a directive without the sign before it. -/
def Directive.tokens (d : Directive) : List Token :=
  .name d.name :: enclosed .parenOpen .parenClose argumentTokens d.arguments

def directivesTokens (ds : List Directive) : List Token :=
  ds.flatMap fun d => .atSign :: d.tokens

def defaultTokens : Option Value → List Token
  | none => []
  | some value => .equals :: value.tokens

def InputValue.tokens (v : InputValue) : List Token :=
  describe v.description ++ .name v.name :: .colon ::
    (v.type.tokens ++ defaultTokens v.default ++ directivesTokens v.directives)

def Field.tokens (f : Field) : List Token :=
  describe f.description ++ .name f.name :: (enclosed .parenOpen .parenClose InputValue.tokens f.arguments ++
    .colon :: f.type.tokens ++ directivesTokens f.directives)

def EnumValue.tokens (v : EnumValue) : List Token :=
  describe v.description ++ .name v.name :: directivesTokens v.directives

/-- A root operation and the type that serves it. -/
def operationTokens (operation : String × String) : List Token :=
  [.name operation.1, .colon, .name operation.2]

/-! ## Tokens of the definitions -/

/-- What follows the name of an object or interface type. -/
def FieldsType.tokens (d : FieldsType) : List Token :=
  .name d.name :: announced (.name "implements") .amp d.interfaces ++ directivesTokens d.directives ++
    enclosed .braceOpen .braceClose Field.tokens d.fields

namespace Definition

/-- What follows the keyword of a plain definition. -/
def contents : Definition → List Token
  | schema d =>
    directivesTokens d.directives ++ enclosed .braceOpen .braceClose operationTokens d.operations
  | scalar d => .name d.name :: directivesTokens d.directives
  | object d => d.tokens
  | interface d => d.tokens
  | union d => .name d.name :: directivesTokens d.directives ++ announced .equals .pipe d.members
  | enum d =>
    .name d.name :: directivesTokens d.directives ++ enclosed .braceOpen .braceClose EnumValue.tokens d.values
  | input d =>
    .name d.name :: directivesTokens d.directives ++ enclosed .braceOpen .braceClose InputValue.tokens d.fields
  | directive d =>
    .atSign :: .name d.name :: enclosed .parenOpen .parenClose InputValue.tokens d.arguments ++
      (if d.repeatable then [.name "repeatable"] else []) ++ .name "on" :: joined .pipe d.locations
  | extension _ => []

def tokens : Definition → List Token
  | extension of => .name "extend" :: of.tokens
  | d => describe d.description? ++ .name d.keyword :: d.contents

end Definition

def Document.tokens (doc : Document) : List Token :=
  doc.definitions.flatMap Definition.tokens

/-- The canonical text of a document. -/
def Document.print (doc : Document) : String :=
  String.ofList (Token.spellAll doc.tokens)

/-! ## The tokens of well-formed parts -/

theorem describe_canonical (description : Option String) : ∀ t ∈ describe description, t.Canonical := by
  cases description with
  | none => exact List.forall_mem_nil _
  | some text => exact List.forall_mem_singleton.mpr trivial

theorem enclosed_canonical {α : Type} {openToken close : Token} {spell : α → List Token} {as : List α}
    (hopen : openToken.Canonical) (hclose : close.Canonical) (h : ∀ a ∈ as, ∀ t ∈ spell a, t.Canonical) :
    ∀ t ∈ enclosed openToken close spell as, t.Canonical := by
  cases as with
  | nil => exact List.forall_mem_nil _
  | cons a as =>
    simp only [enclosed, List.forall_mem_append, List.forall_mem_cons]
    exact ⟨⟨hopen, List.forall_mem_flatMap.mpr h⟩, hclose, List.forall_mem_nil _⟩

theorem joined_canonical (mark : Token) (hmark : mark.Canonical) {names : List String}
    (h : ∀ name ∈ names, ValidName name) : ∀ t ∈ joined mark names, t.Canonical := by
  cases names with
  | nil => exact List.forall_mem_nil _
  | cons name names =>
    obtain ⟨hname, hnames⟩ := List.forall_mem_cons.mp h
    refine List.forall_mem_cons.mpr ⟨hname, List.forall_mem_flatMap.mpr fun other hother => ?_⟩
    exact List.forall_mem_cons.mpr ⟨hmark, List.forall_mem_singleton.mpr (hnames other hother)⟩

theorem announced_canonical (announce mark : Token) (hannounce : announce.Canonical) (hmark : mark.Canonical)
    {names : List String} (h : ∀ name ∈ names, ValidName name) : ∀ t ∈ announced announce mark names, t.Canonical := by
  cases names with
  | nil => exact List.forall_mem_nil _
  | cons name names => exact List.forall_mem_cons.mpr ⟨hannounce, joined_canonical mark hmark h⟩

theorem TypeExpr.WellFormed.canonical {room : Nat} {type : TypeExpr} (h : type.WellFormed room) :
    ∀ t ∈ type.tokens, t.Canonical := by
  induction h with
  | named hname => exact List.forall_mem_singleton.mpr hname
  | list _ ih =>
    simp only [TypeExpr.tokens, List.forall_mem_append, List.forall_mem_cons]
    exact ⟨⟨trivial, ih⟩, trivial, List.forall_mem_nil _⟩
  | nonNull _ _ ih =>
    simp only [TypeExpr.tokens, List.forall_mem_append, List.forall_mem_cons]
    exact ⟨ih, trivial, List.forall_mem_nil _⟩

theorem itemTokens_eq (items : List Value) : itemTokens items = items.flatMap Value.tokens := by
  induction items with
  | nil => rfl
  | cons item items ih => rw [itemTokens, ih, List.flatMap_cons]

theorem entryTokens_eq (entries : List (String × Value)) : entryTokens entries = entries.flatMap argumentTokens := by
  induction entries with
  | nil => rfl
  | cons entry entries ih =>
    obtain ⟨key, value⟩ := entry
    rw [entryTokens, ih, List.flatMap_cons]
    rfl

theorem Value.WellFormed.canonical {room : Nat} {v : Value} (h : v.WellFormed room) :
    ∀ t ∈ v.tokens, t.Canonical := by
  induction h with
  | var hname => exact List.forall_mem_cons.mpr ⟨trivial, List.forall_mem_singleton.mpr hname⟩
  | int htext => exact List.forall_mem_singleton.mpr htext
  | float htext => exact List.forall_mem_singleton.mpr htext
  | string => exact List.forall_mem_singleton.mpr trivial
  | @boolean room value =>
    have hword : IsName (if value then "true" else "false").toList := by cases value <;> decide
    exact List.forall_mem_singleton.mpr hword
  | null =>
    have hword : IsName "null".toList := by decide
    exact List.forall_mem_singleton.mpr hword
  | enum hname _ => exact List.forall_mem_singleton.mpr hname
  | list _ ih =>
    simp only [Value.tokens, itemTokens_eq, List.forall_mem_append, List.forall_mem_cons]
    exact ⟨⟨trivial, List.forall_mem_flatMap.mpr ih⟩, trivial, List.forall_mem_nil _⟩
  | object hkeys _ ih =>
    simp only [Value.tokens, entryTokens_eq, List.forall_mem_append, List.forall_mem_cons]
    refine ⟨⟨trivial, List.forall_mem_flatMap.mpr fun entry hentry => ?_⟩, trivial, List.forall_mem_nil _⟩
    exact List.forall_mem_cons.mpr ⟨hkeys entry hentry, List.forall_mem_cons.mpr ⟨trivial, ih entry hentry⟩⟩

theorem directivesTokens_canonical {room : Nat} {ds : List Directive} (h : ∀ d ∈ ds, d.WellFormed room) :
    ∀ t ∈ directivesTokens ds, t.Canonical := by
  refine List.forall_mem_flatMap.mpr fun d hd => ?_
  simp only [Directive.tokens, List.forall_mem_cons]
  refine ⟨trivial, (h d hd).name, enclosed_canonical trivial trivial fun argument hargument => ?_⟩
  obtain ⟨hname, hvalue⟩ := (h d hd).arguments argument hargument
  exact List.forall_mem_cons.mpr ⟨hname, List.forall_mem_cons.mpr ⟨trivial, hvalue.canonical⟩⟩

theorem defaultTokens_canonical {room : Nat} {default : Option Value}
    (h : ∀ value, default = some value → value.WellFormed room) : ∀ t ∈ defaultTokens default, t.Canonical := by
  cases default with
  | none => exact List.forall_mem_nil _
  | some value => exact List.forall_mem_cons.mpr ⟨trivial, (h value rfl).canonical⟩

theorem InputValue.WellFormed.canonical {room : Nat} {v : InputValue} (h : v.WellFormed room) :
    ∀ t ∈ v.tokens, t.Canonical := by
  simp only [InputValue.tokens, List.forall_mem_append, List.forall_mem_cons]
  exact ⟨describe_canonical _, h.name, trivial, ⟨h.type.canonical, defaultTokens_canonical h.default⟩,
    directivesTokens_canonical h.directives⟩

theorem inputValues_canonical {room : Nat} {vs : List InputValue} (h : ∀ v ∈ vs, v.WellFormed room)
    {openToken close : Token} (hopen : openToken.Canonical) (hclose : close.Canonical) :
    ∀ t ∈ enclosed openToken close InputValue.tokens vs, t.Canonical :=
  enclosed_canonical hopen hclose fun v hv => (h v hv).canonical

theorem Field.WellFormed.canonical {room : Nat} {f : Field} (h : f.WellFormed room) :
    ∀ t ∈ f.tokens, t.Canonical := by
  simp only [Field.tokens, List.forall_mem_append, List.forall_mem_cons]
  exact ⟨describe_canonical _, h.name, ⟨inputValues_canonical h.arguments trivial trivial, trivial,
    h.type.canonical⟩, directivesTokens_canonical h.directives⟩

theorem EnumValue.WellFormed.canonical {room : Nat} {v : EnumValue} (h : v.WellFormed room) :
    ∀ t ∈ v.tokens, t.Canonical := by
  simp only [EnumValue.tokens, List.forall_mem_append, List.forall_mem_cons]
  exact ⟨describe_canonical _, h.name, directivesTokens_canonical h.directives⟩

theorem FieldsType.WellFormed.canonical {room : Nat} {d : FieldsType} (h : d.WellFormed room) :
    ∀ t ∈ d.tokens, t.Canonical := by
  have hword : IsName "implements".toList := by decide
  simp only [FieldsType.tokens, List.forall_mem_append, List.forall_mem_cons]
  exact ⟨⟨⟨h.name, announced_canonical (.name "implements") .amp hword trivial h.interfaces⟩,
    directivesTokens_canonical h.directives⟩, enclosed_canonical trivial trivial fun f hf => (h.fields f hf).canonical⟩

namespace Definition

/-- The keywords that introduce plain definitions. -/
def keywords : List String :=
  ["schema", "scalar", "type", "interface", "union", "enum", "input", "directive"]

theorem keyword_mem {d : Definition} (hplain : d.isExtension = false) : d.keyword ∈ keywords := by
  cases d with
  | extension of => cases hplain
  | _ => simp [Definition.keyword, keywords]

theorem tokens_plain {d : Definition} (hplain : d.isExtension = false) :
    d.tokens = describe d.description? ++ .name d.keyword :: d.contents := by
  cases d with
  | extension of => cases hplain
  | _ => rfl

theorem contents_canonical {room : Nat} {d : Definition} (h : d.WellFormed room) :
    ∀ t ∈ d.contents, t.Canonical := by
  cases d with
  | schema d =>
    simp only [contents, List.forall_mem_append]
    refine ⟨directivesTokens_canonical h.directives, enclosed_canonical trivial trivial fun operation hmem => ?_⟩
    obtain ⟨hkey, htype⟩ := h.operations operation hmem
    exact List.forall_mem_cons.mpr ⟨hkey, List.forall_mem_cons.mpr ⟨trivial, List.forall_mem_singleton.mpr htype⟩⟩
  | scalar d => exact List.forall_mem_cons.mpr ⟨h.name, directivesTokens_canonical h.directives⟩
  | object d => exact FieldsType.WellFormed.canonical h
  | interface d => exact FieldsType.WellFormed.canonical h
  | union d =>
    simp only [contents, List.forall_mem_append, List.forall_mem_cons]
    exact ⟨⟨h.name, directivesTokens_canonical h.directives⟩, announced_canonical .equals .pipe trivial trivial h.members⟩
  | enum d =>
    simp only [contents, List.forall_mem_append, List.forall_mem_cons]
    exact ⟨⟨h.name, directivesTokens_canonical h.directives⟩,
      enclosed_canonical trivial trivial fun v hv => (h.values v hv).canonical⟩
  | input d =>
    simp only [contents, List.forall_mem_append, List.forall_mem_cons]
    exact ⟨⟨h.name, directivesTokens_canonical h.directives⟩, inputValues_canonical h.fields trivial trivial⟩
  | directive d =>
    have hon : IsName "on".toList := by decide
    have hrepeatable : ∀ t ∈ (if d.repeatable then [Token.name "repeatable"] else []), t.Canonical := by
      have hword : IsName "repeatable".toList := by decide
      cases d.repeatable with
      | false => exact List.forall_mem_nil _
      | true => exact List.forall_mem_singleton.mpr hword
    simp only [contents, List.forall_mem_append, List.forall_mem_cons]
    exact ⟨⟨⟨trivial, h.name, inputValues_canonical h.arguments trivial trivial⟩, hrepeatable⟩, hon,
      joined_canonical .pipe trivial h.locations⟩
  | extension d => exact List.forall_mem_nil _

theorem plain_canonical {room : Nat} {d : Definition} (h : d.WellFormed room) (hplain : d.isExtension = false) :
    ∀ t ∈ d.tokens, t.Canonical := by
  have hall : ∀ keyword ∈ keywords, IsName keyword.toList := by decide
  simp only [tokens_plain hplain, List.forall_mem_append, List.forall_mem_cons]
  exact ⟨describe_canonical _, hall _ (keyword_mem hplain), contents_canonical h⟩

theorem WellFormed.canonical {room : Nat} {d : Definition} (h : d.WellFormed room) :
    ∀ t ∈ d.tokens, t.Canonical := by
  cases d with
  | extension of =>
    have hword : IsName "extend".toList := by decide
    exact List.forall_mem_cons.mpr ⟨hword, plain_canonical h.1 h.2.1⟩
  | _ => exact plain_canonical h rfl

end Definition

theorem Document.WellFormed.canonical {doc : Document} (h : doc.WellFormed) : ∀ t ∈ doc.tokens, t.Canonical :=
  List.forall_mem_flatMap.mpr fun d hd => (h d hd).canonical

end SchemaModels
