import SchemaModels.Schema.Source
import SchemaModels.Proofs.Spelling

/-! Well-formed documents. Names and numbers belong to their lexical classes, layers that exclude null
do not stand on one another, lists and objects stand inside each other only so deep, a directive is
defined for some location, and an extension wraps a plain definition without a description. Every
document that a text is parsed as is well formed. -/

namespace SchemaModels
set_option autoImplicit false

/-! ## Well-formed parts -/

def ValidName (text : String) : Prop :=
  IsName text.toList

theorem ValidName.not_mem {name : String} (h : ValidName name) {c : Char} (hc : isNamePart c = false) :
    c ∉ name.toList := by
  obtain ⟨first, rest, hcons, hfirst, hrest⟩ := h
  rw [hcons]
  intro hmem
  rcases List.mem_cons.mp hmem with rfl | hmem
  · simp [isNamePart, hfirst] at hc
  · exact Bool.false_ne_true (hc.symm.trans (hrest c hmem))

/-- A type of at most `room` list layers, none of whose layers excludes null twice. -/
inductive TypeExpr.WellFormed : Nat → TypeExpr → Prop
  | named {room : Nat} {name : String} : ValidName name → WellFormed room (named name)
  | list {room : Nat} {item : TypeExpr} : WellFormed room item → WellFormed (room + 1) (list item)
  | nonNull {room : Nat} {inner : TypeExpr} :
    WellFormed room inner → (∀ type, inner ≠ nonNull type) → WellFormed room (nonNull inner)

/-- A value of at most `room` layers of lists and objects. -/
inductive Value.WellFormed : Nat → Value → Prop
  | var {room : Nat} {name : String} : ValidName name → WellFormed room (var name)
  | int {room : Nat} {text : String} : Number.IsInt text.toList → WellFormed room (int text)
  | float {room : Nat} {text : String} : Number.IsFloat text.toList → WellFormed room (float text)
  | string {room : Nat} {value : String} : WellFormed room (string value)
  | boolean {room : Nat} {value : Bool} : WellFormed room (boolean value)
  | null {room : Nat} : WellFormed room null
  | enum {room : Nat} {name : String} :
    ValidName name → name ∉ ["true", "false", "null"] → WellFormed room (enum name)
  | list {room : Nat} {items : List Value} :
    (∀ item ∈ items, WellFormed room item) → WellFormed (room + 1) (list items)
  | object {room : Nat} {entries : List (String × Value)} :
    (∀ entry ∈ entries, ValidName entry.1) → (∀ entry ∈ entries, WellFormed room entry.2) →
      WellFormed (room + 1) (object entries)

structure Directive.WellFormed (room : Nat) (d : Directive) : Prop where
  name : ValidName d.name
  arguments : ∀ argument ∈ d.arguments, ValidName argument.1 ∧ argument.2.WellFormed room

structure InputValue.WellFormed (room : Nat) (v : InputValue) : Prop where
  name : ValidName v.name
  type : v.type.WellFormed room
  default : ∀ value, v.default = some value → value.WellFormed room
  directives : ∀ d ∈ v.directives, d.WellFormed room

structure Field.WellFormed (room : Nat) (f : Field) : Prop where
  name : ValidName f.name
  arguments : ∀ argument ∈ f.arguments, argument.WellFormed room
  type : f.type.WellFormed room
  directives : ∀ d ∈ f.directives, d.WellFormed room

structure EnumValue.WellFormed (room : Nat) (v : EnumValue) : Prop where
  name : ValidName v.name
  directives : ∀ d ∈ v.directives, d.WellFormed room

/-! ## Well-formed definitions -/

structure SchemaRoot.WellFormed (room : Nat) (d : SchemaRoot) : Prop where
  directives : ∀ use ∈ d.directives, use.WellFormed room
  operations : ∀ operation ∈ d.operations, ValidName operation.1 ∧ ValidName operation.2

structure ScalarType.WellFormed (room : Nat) (d : ScalarType) : Prop where
  name : ValidName d.name
  directives : ∀ use ∈ d.directives, use.WellFormed room

structure FieldsType.WellFormed (room : Nat) (d : FieldsType) : Prop where
  name : ValidName d.name
  interfaces : ∀ interface ∈ d.interfaces, ValidName interface
  directives : ∀ use ∈ d.directives, use.WellFormed room
  fields : ∀ field ∈ d.fields, field.WellFormed room

structure UnionType.WellFormed (room : Nat) (d : UnionType) : Prop where
  name : ValidName d.name
  directives : ∀ use ∈ d.directives, use.WellFormed room
  members : ∀ member ∈ d.members, ValidName member

structure EnumType.WellFormed (room : Nat) (d : EnumType) : Prop where
  name : ValidName d.name
  directives : ∀ use ∈ d.directives, use.WellFormed room
  values : ∀ value ∈ d.values, value.WellFormed room

structure InputType.WellFormed (room : Nat) (d : InputType) : Prop where
  name : ValidName d.name
  directives : ∀ use ∈ d.directives, use.WellFormed room
  fields : ∀ field ∈ d.fields, field.WellFormed room

structure DirectiveType.WellFormed (room : Nat) (d : DirectiveType) : Prop where
  name : ValidName d.name
  arguments : ∀ argument ∈ d.arguments, argument.WellFormed room
  located : d.locations ≠ []
  locations : ∀ location ∈ d.locations, ValidName location

/-- The text written before a definition. -/
def Definition.description? : Definition → Option String
  | schema d => d.description
  | scalar d => d.description
  | object d => d.description
  | interface d => d.description
  | union d => d.description
  | enum d => d.description
  | input d => d.description
  | directive d => d.description
  | extension _ => none

def Definition.WellFormed (room : Nat) : Definition → Prop
  | schema d => d.WellFormed room
  | scalar d => d.WellFormed room
  | object d => d.WellFormed room
  | interface d => d.WellFormed room
  | union d => d.WellFormed room
  | enum d => d.WellFormed room
  | input d => d.WellFormed room
  | directive d => d.WellFormed room
  | extension of => of.WellFormed room ∧ of.isExtension = false ∧ of.description? = none

/-- Every definition is well formed, with types and values of no more layers than are allowed. -/
def Document.WellFormed (doc : Document) : Prop :=
  ∀ d ∈ doc.definitions, d.WellFormed maxNesting

/-! ## What a parser yields -/

namespace TokenParser

variable {α β : Type} {P : α → Prop} {Q : β → Prop}

/-- On tokens of their classes a parser gives values with a property, and leaves such tokens. -/
def Yields (p : TokenParser α) (P : α → Prop) : Prop :=
  ∀ ts a rest, (∀ t ∈ ts, t.Lexical) → p ts = .ok (a, rest) → P a ∧ ∀ t ∈ rest, t.Lexical

theorem yields_pure {a : α} (h : P a) : Yields (pure a) P := by
  intro ts b rest hts hp
  cases hp
  exact ⟨h, hts⟩

theorem yields_fail (cause : Cause) : Yields (fail cause) P :=
  fun _ _ _ _ hp => nomatch hp

theorem yields_bind {p : TokenParser α} {f : α → TokenParser β} (hp : Yields p P)
    (hf : ∀ a, P a → Yields (f a) Q) : Yields (p >>= f) Q := by
  intro ts b rest hts h
  rw [bind_apply] at h
  split at h
  · next a mid hmid =>
    obtain ⟨ha, hlex⟩ := hp ts a mid hts hmid
    exact hf a ha mid b rest hlex h
  · cases h

theorem yields_map {p : TokenParser α} {f : α → β} (hp : Yields p fun a => Q (f a)) : Yields (f <$> p) Q := by
  intro ts b rest hts h
  rw [map_apply] at h
  split at h
  · next a mid hmid =>
    cases h
    exact hp ts a rest hts hmid
  · cases h

theorem yields_mono {P' : α → Prop} {p : TokenParser α} (hp : Yields p P) (h : ∀ a, P a → P' a) : Yields p P' :=
  fun ts a rest hts he => ⟨h a (hp ts a rest hts he).1, (hp ts a rest hts he).2⟩

theorem yields_peek? : Yields peek? fun next => ∀ t, next = some t → t.Lexical := by
  intro ts next rest hts h
  cases h
  exact ⟨fun t ht => hts t (List.mem_of_head? ht), hts⟩

theorem yields_skip : Yields skip fun _ => True := by
  intro ts _ rest hts h
  cases h
  exact ⟨trivial, fun t ht => hts t (List.mem_of_mem_tail ht)⟩

theorem yields_accept (t : Token) : Yields (accept t) fun _ => True := by
  intro ts b rest hts h
  unfold accept at h
  split at h <;> cases h
  · exact ⟨trivial, fun t ht => hts t (List.mem_of_mem_tail ht)⟩
  · exact ⟨trivial, hts⟩

theorem yields_expect (t : Token) : Yields (expect t) fun _ => True := by
  intro ts _ rest hts h
  unfold expect at h
  split at h
  · cases h
    exact ⟨trivial, fun t ht => hts t (List.mem_of_mem_tail ht)⟩
  · cases h

theorem yields_name : Yields name ValidName := by
  intro ts text rest hts h
  unfold name at h
  split at h
  · cases h
    exact ⟨hts _ List.mem_cons_self, fun t ht => hts t (List.mem_cons_of_mem _ ht)⟩
  · cases h

theorem yields_string? : Yields string? fun _ => True := by
  intro ts value rest hts h
  unfold string? at h
  split at h
  · cases h
    exact ⟨trivial, hts⟩
  · split at h <;> cases h
    · exact ⟨trivial, fun t ht => hts t (List.mem_cons_of_mem _ ht)⟩
    · exact ⟨trivial, hts⟩

/-! Repetitions yield lists of what their parts yield. -/

theorem yields_manyUntilFrom {part : TokenParser α} (hp : Yields part P) (close : Token) (bound : List Token) :
    Yields (manyUntilFrom close part bound) fun as => ∀ a ∈ as, P a := by
  induction bound with
  | nil =>
    intro ts as rest hts h
    rw [manyUntilFrom] at h
    split at h
    · cases h
      exact ⟨List.forall_mem_nil _, fun t ht => hts t (List.mem_of_mem_tail ht)⟩
    · split at h
      · cases h
      · next a mid hmid =>
        cases h
        obtain ⟨ha, hlex⟩ := hp ts a rest hts hmid
        exact ⟨by simpa using ha, hlex⟩
  | cons b bound ih =>
    intro ts as rest hts h
    rw [manyUntilFrom] at h
    split at h
    · cases h
      exact ⟨List.forall_mem_nil _, fun t ht => hts t (List.mem_of_mem_tail ht)⟩
    · split at h
      · cases h
      · next a mid hmid =>
        obtain ⟨ha, hlex⟩ := hp ts a mid hts hmid
        dsimp only at h
        split at h
        · next as' rest' hmany =>
          cases h
          obtain ⟨has, hrest⟩ := ih mid as' rest hlex hmany
          exact ⟨by simpa [ha] using has, hrest⟩
        · cases h

theorem yields_manyUntil {part : TokenParser α} (hp : Yields part P) (close : Token) :
    Yields (manyUntil close part) fun as => ∀ a ∈ as, P a :=
  fun ts => yields_manyUntilFrom hp close ts ts

theorem yields_manyAfterFrom {part : TokenParser α} (hp : Yields part P) (mark : Token) (bound : List Token) :
    Yields (manyAfterFrom mark part bound) fun as => ∀ a ∈ as, P a := by
  induction bound with
  | nil =>
    intro ts as rest hts h
    cases h
    exact ⟨List.forall_mem_nil _, hts⟩
  | cons b bound ih =>
    intro ts as rest hts h
    rw [manyAfterFrom] at h
    split at h
    · split at h
      · cases h
      · next a mid hmid =>
        obtain ⟨ha, hlex⟩ := hp ts.tail a mid (fun t ht => hts t (List.mem_of_mem_tail ht)) hmid
        split at h
        · next as' rest' hmany =>
          cases h
          obtain ⟨has, hrest⟩ := ih mid as' rest hlex hmany
          exact ⟨by simpa [ha] using has, hrest⟩
        · cases h
    · cases h
      exact ⟨List.forall_mem_nil _, hts⟩

theorem yields_manyAfter {part : TokenParser α} (hp : Yields part P) (mark : Token) :
    Yields (manyAfter mark part) fun as => ∀ a ∈ as, P a :=
  fun ts => yields_manyAfterFrom hp mark ts ts

theorem manyToEndFrom_yields {part : TokenParser α} (hp : Yields part P) {bound ts : List Token} {as : List α}
    (hts : ∀ t ∈ ts, t.Lexical) (h : manyToEndFrom part bound ts = .ok as) : ∀ a ∈ as, P a := by
  induction bound generalizing ts as with
  | nil => cases ts <;> cases h <;> exact List.forall_mem_nil _
  | cons b bound ih =>
    cases ts with
    | nil =>
      cases h
      exact List.forall_mem_nil _
    | cons t ts =>
      rw [manyToEndFrom] at h
      split at h
      · cases h
      · next a mid hmid =>
        obtain ⟨ha, hlex⟩ := hp (t :: ts) a mid hts hmid
        split at h
        · next as' hmany =>
          cases h
          simpa [ha] using ih hlex hmany
        · cases h

theorem yields_block {part : TokenParser α} (hp : Yields part P) (openToken close : Token) :
    Yields (block openToken close part) fun as => ∀ a ∈ as, P a := by
  refine yields_bind (yields_accept _) fun found _ => ?_
  split
  · exact yields_manyUntil hp close
  · exact yields_pure (List.forall_mem_nil _)

theorem yields_separated {part : TokenParser α} (hp : Yields part P) (mark : Token) :
    Yields (separated mark part) fun as => as ≠ [] ∧ ∀ a ∈ as, P a := by
  refine yields_bind (yields_accept _) fun _ _ => ?_
  refine yields_bind hp fun first hfirst => ?_
  refine yields_bind (yields_manyAfter hp mark) fun others hothers => ?_
  exact yields_pure ⟨List.cons_ne_nil _ _, by simpa [hfirst] using hothers⟩

end TokenParser

/-! ## What the grammar yields -/

namespace Grammar

open TokenParser

/-- The end of a layer: a sign that excludes null, or nothing. -/
def nullMark (type : TypeExpr) : TokenParser TypeExpr := do
  if ← accept .bang then return .nonNull type else return type

theorem nullMark_yields {room : Nat} {type : TypeExpr} (htype : type.WellFormed room)
    (hplain : ∀ inner, type ≠ .nonNull inner) : Yields (nullMark type) (TypeExpr.WellFormed room) := by
  refine yields_bind (yields_accept _) fun found _ => ?_
  split
  · exact yields_pure (.nonNull htype hplain)
  · exact yields_pure htype

/-- One layer yields well-formed types if the list around each item of the next one is well formed. -/
theorem typeLayer_yields {room : Nat} {item : Option (TokenParser TypeExpr)}
    (hitem : ∀ p, item = some p → Yields p fun type => (TypeExpr.list type).WellFormed room) :
    Yields (typeLayer item) (TypeExpr.WellFormed room) := by
  have hnamed : Yields (TypeExpr.named <$> TokenParser.name) fun type =>
      type.WellFormed room ∧ ∀ inner, type ≠ .nonNull inner :=
    yields_map (yields_mono yields_name fun _ h => ⟨.named h, fun _ he => nomatch he⟩)
  refine yields_bind (yields_accept _) fun found _ => ?_
  dsimp only
  split
  · split
    · exact yields_bind (P := fun _ => False) (yields_fail _) fun _ h => h.elim
    · next p =>
      refine yields_bind (hitem p rfl) fun inner hinner => ?_
      refine yields_bind (yields_expect _) fun _ _ => ?_
      exact nullMark_yields hinner fun _ h => nomatch h
  · exact yields_bind hnamed fun type htype => nullMark_yields htype.1 htype.2

theorem typeExpr_yields (room : Nat) : Yields (typeExpr room) (TypeExpr.WellFormed room) := by
  induction room with
  | zero => exact typeLayer_yields fun _ h => nomatch h
  | succ room ih =>
    refine typeLayer_yields fun p hp => ?_
    cases hp
    exact yields_mono ih fun _ h => .list h

theorem entry_yields {α : Type} {P : α → Prop} {part : TokenParser α} (hp : Yields part P) :
    Yields (entry part) fun e => ValidName e.1 ∧ P e.2 := by
  refine yields_bind yields_name fun key hkey => ?_
  refine yields_bind (yields_expect _) fun _ _ => ?_
  refine yields_bind hp fun value hvalue => ?_
  exact yields_pure ⟨hkey, hvalue⟩

theorem namedValue_wellFormed (room : Nat) {name : String} (h : ValidName name) :
    (namedValue name).WellFormed room := by
  unfold namedValue
  split_ifs with ht hf hn
  · exact .boolean
  · exact .boolean
  · exact .null
  · exact .enum h (by simp [ht, hf, hn])

theorem tokenValue?_wellFormed (room : Nat) {t : Token} (ht : t.Lexical) {v : Value}
    (h : tokenValue? t = some v) : v.WellFormed room := by
  unfold tokenValue? at h
  split at h <;> cases h
  · exact .int ht
  · exact .float ht
  · exact .string
  · exact .string
  · exact namedValue_wellFormed room ht

theorem valueLayer_yields {room : Nat} {item : Option (TokenParser Value)}
    (hitem : ∀ p, item = some p → ∃ inner, room = inner + 1 ∧ Yields p (Value.WellFormed inner)) :
    Yields (valueLayer item) (Value.WellFormed room) := by
  refine yields_bind (yields_accept _) fun dollar _ => ?_
  split
  · exact yields_map (yields_mono yields_name fun _ h => .var h)
  refine yields_bind (yields_accept _) fun bracket _ => ?_
  split
  · split
    · exact yields_fail _
    · next p =>
      obtain ⟨inner, rfl, hp⟩ := hitem p rfl
      exact yields_map (yields_mono (yields_manyUntil hp _) fun _ h => .list h)
  refine yields_bind (yields_accept _) fun brace _ => ?_
  split
  · split
    · exact yields_fail _
    · next p =>
      obtain ⟨inner, rfl, hp⟩ := hitem p rfl
      refine yields_map (yields_mono (yields_manyUntil (entry_yields hp) _) fun entries h => ?_)
      exact .object (fun e he => (h e he).1) fun e he => (h e he).2
  refine yields_bind yields_peek? fun next hnext => ?_
  split
  · next value hvalue =>
    obtain ⟨t, ht, hv⟩ := Option.bind_eq_some_iff.mp hvalue
    refine yields_bind yields_skip fun _ _ => ?_
    exact yields_pure (tokenValue?_wellFormed room (hnext t ht) hv)
  · exact yields_fail _

theorem value_yields (room : Nat) : Yields (value room) (Value.WellFormed room) := by
  induction room with
  | zero => exact valueLayer_yields fun _ h => nomatch h
  | succ room ih =>
    refine valueLayer_yields fun p hp => ?_
    cases hp
    exact ⟨room, rfl, ih⟩

theorem directive_yields (room : Nat) : Yields (directive room) (Directive.WellFormed room) := by
  refine yields_bind yields_name fun name hname => ?_
  refine yields_bind (yields_block (entry_yields (value_yields room)) _ _) fun arguments harguments => ?_
  exact yields_pure ⟨hname, harguments⟩

theorem directives_yields (room : Nat) : Yields (directives room) fun ds => ∀ d ∈ ds, d.WellFormed room :=
  yields_manyAfter (directive_yields room) _

theorem defaultValue_yields (room : Nat) :
    Yields (defaultValue room) fun default => ∀ value, default = some value → value.WellFormed room := by
  refine yields_bind (yields_accept _) fun found _ => ?_
  split
  · refine yields_map (yields_mono (value_yields room) fun v hv value he => ?_)
    cases he
    exact hv
  · exact yields_pure fun _ he => nomatch he

theorem inputValue_yields (room : Nat) : Yields (inputValue room) (InputValue.WellFormed room) := by
  refine yields_bind yields_string? fun description _ => ?_
  refine yields_bind yields_name fun name hname => ?_
  refine yields_bind (yields_expect _) fun _ _ => ?_
  refine yields_bind (typeExpr_yields room) fun type htype => ?_
  refine yields_bind (defaultValue_yields room) fun default hdefault => ?_
  refine yields_bind (directives_yields room) fun directives hdirectives => ?_
  exact yields_pure ⟨hname, htype, hdefault, hdirectives⟩

theorem inputValues_yields (room : Nat) (openToken close : Token) :
    Yields (inputValues room openToken close) fun vs => ∀ v ∈ vs, v.WellFormed room :=
  yields_block (inputValue_yields room) _ _

theorem field_yields (room : Nat) : Yields (field room) (Field.WellFormed room) := by
  refine yields_bind yields_string? fun description _ => ?_
  refine yields_bind yields_name fun name hname => ?_
  refine yields_bind (inputValues_yields room _ _) fun arguments harguments => ?_
  refine yields_bind (yields_expect _) fun _ _ => ?_
  refine yields_bind (typeExpr_yields room) fun type htype => ?_
  refine yields_bind (directives_yields room) fun directives hdirectives => ?_
  exact yields_pure ⟨hname, harguments, htype, hdirectives⟩

theorem enumValue_yields (room : Nat) : Yields (enumValue room) (EnumValue.WellFormed room) := by
  refine yields_bind yields_string? fun description _ => ?_
  refine yields_bind yields_name fun name hname => ?_
  refine yields_bind (directives_yields room) fun directives hdirectives => ?_
  exact yields_pure ⟨hname, hdirectives⟩

theorem schemaRoot_yields (room : Nat) (description : Option String) :
    Yields (schemaRoot room description) fun d => d.WellFormed room ∧ d.description = description := by
  refine yields_bind (directives_yields room) fun directives hdirectives => ?_
  refine yields_bind (yields_block (entry_yields yields_name) _ _) fun operations hoperations => ?_
  exact yields_pure ⟨⟨hdirectives, hoperations⟩, rfl⟩

theorem scalarType_yields (room : Nat) (description : Option String) :
    Yields (scalarType room description) fun d => d.WellFormed room ∧ d.description = description := by
  refine yields_bind yields_name fun name hname => ?_
  refine yields_bind (directives_yields room) fun directives hdirectives => ?_
  exact yields_pure ⟨⟨hname, hdirectives⟩, rfl⟩

/-- Names with a mark between them, if a token announces them. -/
theorem announced_yields (announce mark : Token) :
    Yields (do if ← accept announce then separated mark TokenParser.name else return [])
      fun names => ∀ name ∈ names, ValidName name := by
  refine yields_bind (yields_accept _) fun found _ => ?_
  split
  · exact yields_mono (yields_separated yields_name _) fun _ h => h.2
  · exact yields_pure (List.forall_mem_nil _)

theorem fieldsType_yields (room : Nat) (description : Option String) :
    Yields (fieldsType room description) fun d => d.WellFormed room ∧ d.description = description := by
  refine yields_bind yields_name fun name hname => ?_
  refine yields_bind (announced_yields _ _) fun interfaces hinterfaces => ?_
  refine yields_bind (directives_yields room) fun directives hdirectives => ?_
  refine yields_bind (yields_block (field_yields room) _ _) fun fields hfields => ?_
  exact yields_pure ⟨⟨hname, hinterfaces, hdirectives, hfields⟩, rfl⟩

theorem unionType_yields (room : Nat) (description : Option String) :
    Yields (unionType room description) fun d => d.WellFormed room ∧ d.description = description := by
  refine yields_bind yields_name fun name hname => ?_
  refine yields_bind (directives_yields room) fun directives hdirectives => ?_
  refine yields_bind (announced_yields _ _) fun members hmembers => ?_
  exact yields_pure ⟨⟨hname, hdirectives, hmembers⟩, rfl⟩

theorem enumType_yields (room : Nat) (description : Option String) :
    Yields (enumType room description) fun d => d.WellFormed room ∧ d.description = description := by
  refine yields_bind yields_name fun name hname => ?_
  refine yields_bind (directives_yields room) fun directives hdirectives => ?_
  refine yields_bind (yields_block (enumValue_yields room) _ _) fun values hvalues => ?_
  exact yields_pure ⟨⟨hname, hdirectives, hvalues⟩, rfl⟩

theorem inputType_yields (room : Nat) (description : Option String) :
    Yields (inputType room description) fun d => d.WellFormed room ∧ d.description = description := by
  refine yields_bind yields_name fun name hname => ?_
  refine yields_bind (directives_yields room) fun directives hdirectives => ?_
  refine yields_bind (inputValues_yields room _ _) fun fields hfields => ?_
  exact yields_pure ⟨⟨hname, hdirectives, hfields⟩, rfl⟩

theorem directiveType_yields (room : Nat) (description : Option String) :
    Yields (directiveType room description) fun d => d.WellFormed room ∧ d.description = description := by
  refine yields_bind (yields_expect _) fun _ _ => ?_
  refine yields_bind yields_name fun name hname => ?_
  refine yields_bind (inputValues_yields room _ _) fun arguments harguments => ?_
  refine yields_bind (yields_accept _) fun repeatable _ => ?_
  refine yields_bind (yields_expect _) fun _ _ => ?_
  refine yields_bind (yields_separated yields_name _) fun locations hlocations => ?_
  exact yields_pure ⟨⟨hname, harguments, hlocations.1, hlocations.2⟩, rfl⟩

/-- What follows a keyword is a plain definition with the description read before it. -/
theorem afterKeyword?_yields {room : Nat} {keyword : String} {description : Option String}
    {p : TokenParser Definition} (h : afterKeyword? room keyword description = some p) :
    Yields p fun d => d.WellFormed room ∧ d.isExtension = false ∧ d.description? = description := by
  unfold afterKeyword? at h
  split at h
  · cases h
    exact yields_map (yields_mono (schemaRoot_yields room description) fun _ h => ⟨h.1, rfl, h.2⟩)
  · cases h
    exact yields_map (yields_mono (scalarType_yields room description) fun _ h => ⟨h.1, rfl, h.2⟩)
  · cases h
    exact yields_map (yields_mono (fieldsType_yields room description) fun _ h => ⟨h.1, rfl, h.2⟩)
  · cases h
    exact yields_map (yields_mono (fieldsType_yields room description) fun _ h => ⟨h.1, rfl, h.2⟩)
  · cases h
    exact yields_map (yields_mono (unionType_yields room description) fun _ h => ⟨h.1, rfl, h.2⟩)
  · cases h
    exact yields_map (yields_mono (enumType_yields room description) fun _ h => ⟨h.1, rfl, h.2⟩)
  · cases h
    exact yields_map (yields_mono (inputType_yields room description) fun _ h => ⟨h.1, rfl, h.2⟩)
  · cases h
    exact yields_map (yields_mono (directiveType_yields room description) fun _ h => ⟨h.1, rfl, h.2⟩)
  · cases h

theorem typeSystemDefinition_yields (room : Nat) (description : Option String) :
    Yields (typeSystemDefinition room description) fun d =>
      d.WellFormed room ∧ d.isExtension = false ∧ d.description? = description := by
  refine yields_bind yields_peek? fun next _ => ?_
  split
  · next p hp =>
    obtain ⟨keyword, -, hkeyword⟩ := Option.bind_eq_some_iff.mp hp
    refine yields_bind yields_skip fun _ _ => ?_
    exact afterKeyword?_yields hkeyword
  · exact yields_fail _

theorem definition_yields (room : Nat) : Yields (definition room) (Definition.WellFormed room) := by
  refine yields_bind yields_string? fun description _ => ?_
  refine yields_bind yields_peek? fun next _ => ?_
  split
  · exact yields_fail _
  · split_ifs
    · exact yields_fail _
    · refine yields_bind yields_skip fun _ _ => ?_
      exact yields_map (typeSystemDefinition_yields room none)
    · exact yields_mono (typeSystemDefinition_yields room description) fun _ h => h.1
    · exact yields_fail _

theorem document_wellFormed {room : Nat} {ts : List Token} {doc : Document} (hts : ∀ t ∈ ts, t.Lexical)
    (h : document room ts = .ok doc) : ∀ d ∈ doc.definitions, d.WellFormed room := by
  unfold document at h
  split at h
  · next ds hds =>
    cases h
    exact manyToEndFrom_yields (definition_yields room) hts hds
  · cases h

end Grammar

/-- Every document that a text is parsed as is well formed. -/
theorem Document.wellFormed_of_parse {text : String} {doc : Document} (h : Document.parse text = .ok doc) :
    doc.WellFormed := by
  unfold Document.parse Document.ofChars at h
  dsimp only at h
  split at h
  · cases h
  · next lexemes htokens =>
    have hlex : ∀ l ∈ lexemes, l.token.Lexical := by
      unfold tokenize at htokens
      cases hscan : Lexeme.scan (Text.dropByteOrderMark text.toList) with
      | error u =>
        rw [hscan] at htokens
        cases htokens
      | ok ls =>
        rw [hscan] at htokens
        cases htokens
        exact Lexeme.scanFrom_lexical (List.forall_mem_nil _) hscan
    cases hdoc : Grammar.document maxNesting (lexemes.map Lexeme.token) with
    | error fault =>
      rw [hdoc] at h
      cases h
    | ok doc' =>
      rw [hdoc] at h
      cases h
      refine Grammar.document_wellFormed ?_ hdoc
      intro t ht
      obtain ⟨l, hl, rfl⟩ := List.mem_map.mp ht
      exact hlex l hl

end SchemaModels
