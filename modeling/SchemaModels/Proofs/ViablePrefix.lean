import Mathlib.Data.List.Induction
import SchemaModels.Proofs.Layout
import SchemaModels.Proofs.Predictive

/-! Viable prefixes. The grammar is predictive, so a schema is refused at the first token that no further
tokens make right: some accepted text begins with the tokens before it, none with that token too, and the
refusal names its text and where it starts. A refusal at the end means that more tokens would have been
accepted. -/

namespace SchemaModels
set_option autoImplicit false

namespace Grammar

open TokenParser

/-! ## The grammar is predictive -/

theorem nullMark_incremental (type : TypeExpr) : Incremental (nullMark type) :=
  incremental_accept rfl (Incremental.pure _).predictive (.pure _)

theorem typeLayer_incremental {item : Option (TokenParser TypeExpr)}
    (hitem : ∀ p, item = some p → Predictive p) : Incremental (typeLayer item) := by
  refine incremental_accept rfl ?_ ((incremental_name.map _).bind nullMark_incremental)
  cases item with
  | none => exact predictive_fail_tooDeep.bind nullMark_incremental
  | some p =>
    refine (hitem p rfl).bind fun inner => ?_
    exact (incremental_expect .bracketClose trivial rfl).bind fun _ => nullMark_incremental (.list inner)

theorem typeExpr_incremental (room : Nat) : Incremental (typeExpr room) := by
  induction room with
  | zero =>
    show Incremental (typeLayer none)
    exact typeLayer_incremental nofun
  | succ room ih =>
    show Incremental (typeLayer (some (typeExpr room)))
    refine typeLayer_incremental fun p hp => ?_
    cases hp
    exact ih.predictive

theorem entry_incremental {α : Type} {part : TokenParser α} (hp : Incremental part) : Incremental (entry part) := by
  refine incremental_name.bind fun key => ?_
  refine (incremental_expect .colon trivial rfl).bind fun _ => ?_
  exact hp.bind fun value => .pure _

/-- The end of a layer of values: one token that denotes a value. -/
def plainValue : TokenParser Value := do
  match (← peek?).bind tokenValue? with
  | some value => do
    skip
    return value
  | none => fail (.expected .value)

theorem plainValue_incremental : Incremental plainValue := by
  have hx : IsName "x".toList := by decide
  have hstart : Startable plainValue :=
    .cons (t := .name "x") hx (by decide) (fun _ => rfl) (Startable.pure (Value.enum "x")).completable
  refine ⟨fun ts => ?_, hstart⟩
  cases ts with
  | nil => exact .refuse rfl hstart.completable nofun
  | cons t ts =>
    cases ht : tokenValue? t with
    | some v =>
      refine .take (a := v) (fun more => ?_) ts
      refine bind_of rfl ?_
      simp only [List.head?_cons, Option.bind_some, ht]
      rfl
    | none =>
      refine .refuse_next (.expected .value) (fun more => ?_) hstart.completable ts
      refine bind_of rfl ?_
      simp only [List.head?_cons, Option.bind_some, ht]
      rfl

theorem valueLayer_incremental {item : Option (TokenParser Value)}
    (hitem : ∀ p, item = some p → Incremental p ∧ ∃ fault, p [] = .error fault) : Incremental (valueLayer item) := by
  refine incremental_accept rfl (incremental_name.map _).predictive ?_
  refine incremental_accept rfl ?_ (incremental_accept rfl ?_ plainValue_incremental)
  · cases item with
    | none => exact predictive_fail_tooDeep
    | some p =>
      obtain ⟨hp, fault, hnil⟩ := hitem p rfl
      exact (incremental_manyUntil hp.predictive hnil .bracketClose trivial rfl).predictive.map _
  · cases item with
    | none => exact predictive_fail_tooDeep
    | some p =>
      obtain ⟨hp, -⟩ := hitem p rfl
      exact (incremental_manyUntil (entry_incremental hp).predictive rfl .braceClose trivial rfl).predictive.map _

theorem value_incremental (room : Nat) : Incremental (value room) := by
  induction room with
  | zero =>
    show Incremental (valueLayer none)
    exact valueLayer_incremental nofun
  | succ room ih =>
    show Incremental (valueLayer (some (value room)))
    refine valueLayer_incremental fun p hp => ?_
    cases hp
    refine ⟨ih, ?_⟩
    obtain ⟨item, hlayer⟩ := value_layer room
    rw [hlayer]
    exact ⟨_, rfl⟩

theorem directive_incremental (room : Nat) : Incremental (directive room) := by
  refine incremental_name.bind fun name => ?_
  have hargument := (entry_incremental (value_incremental room)).predictive
  exact (incremental_block hargument rfl rfl .parenClose trivial rfl).bind fun arguments => .pure _

theorem directives_incremental (room : Nat) : Incremental (directives room) :=
  incremental_manyAfter (directive_incremental room).predictive rfl

theorem defaultValue_incremental (room : Nat) : Incremental (defaultValue room) :=
  incremental_accept rfl ((value_incremental room).map _).predictive (.pure none)

theorem inputValue_incremental (room : Nat) : Incremental (inputValue room) := by
  refine incremental_string?.bind fun description => ?_
  refine incremental_name.bind fun name => ?_
  refine (incremental_expect .colon trivial rfl).bind fun _ => ?_
  refine (typeExpr_incremental room).bind fun type => ?_
  refine (defaultValue_incremental room).bind fun default => ?_
  exact (directives_incremental room).bind fun directives => .pure _

theorem inputValues_incremental (room : Nat) {openToken : Token} (ho : openToken.continues = true) (close : Token)
    (hclose : close.Canonical) (hc : close.continues = false) : Incremental (inputValues room openToken close) :=
  incremental_block (inputValue_incremental room).predictive rfl ho close hclose hc

theorem field_incremental (room : Nat) : Incremental (field room) := by
  refine incremental_string?.bind fun description => ?_
  refine incremental_name.bind fun name => ?_
  refine (inputValues_incremental room rfl .parenClose trivial rfl).bind fun arguments => ?_
  refine (incremental_expect .colon trivial rfl).bind fun _ => ?_
  refine (typeExpr_incremental room).bind fun type => ?_
  exact (directives_incremental room).bind fun directives => .pure _

theorem enumValue_incremental (room : Nat) : Incremental (enumValue room) := by
  refine incremental_string?.bind fun description => ?_
  refine incremental_name.bind fun name => ?_
  exact (directives_incremental room).bind fun directives => .pure _

theorem schemaRoot_incremental (room : Nat) (description : Option String) :
    Incremental (schemaRoot room description) := by
  refine (directives_incremental room).bind fun directives => ?_
  refine (incremental_block (entry_incremental incremental_name).predictive rfl rfl .braceClose trivial rfl).bind ?_
  exact fun operations => .pure _

theorem scalarType_incremental (room : Nat) (description : Option String) :
    Incremental (scalarType room description) := by
  refine incremental_name.bind fun name => ?_
  exact (directives_incremental room).bind fun directives => .pure _

theorem fieldsType_incremental (room : Nat) (description : Option String) :
    Incremental (fieldsType room description) := by
  have hinterfaces : Incremental interfaces :=
    incremental_accept rfl (incremental_separated incremental_name rfl).predictive (.pure [])
  refine incremental_name.bind fun name => ?_
  refine hinterfaces.bind fun interfaces => ?_
  refine (directives_incremental room).bind fun directives => ?_
  refine (incremental_block (field_incremental room).predictive rfl rfl .braceClose trivial rfl).bind ?_
  exact fun fields => .pure _

theorem unionType_incremental (room : Nat) (description : Option String) :
    Incremental (unionType room description) := by
  have hmembers : Incremental members :=
    incremental_accept rfl (incremental_separated incremental_name rfl).predictive (.pure [])
  refine incremental_name.bind fun name => ?_
  refine (directives_incremental room).bind fun directives => ?_
  exact hmembers.bind fun members => .pure _

theorem enumType_incremental (room : Nat) (description : Option String) :
    Incremental (enumType room description) := by
  refine incremental_name.bind fun name => ?_
  refine (directives_incremental room).bind fun directives => ?_
  refine (incremental_block (enumValue_incremental room).predictive rfl rfl .braceClose trivial rfl).bind ?_
  exact fun values => .pure _

theorem inputType_incremental (room : Nat) (description : Option String) :
    Incremental (inputType room description) := by
  refine incremental_name.bind fun name => ?_
  refine (directives_incremental room).bind fun directives => ?_
  exact (inputValues_incremental room rfl .braceClose trivial rfl).bind fun fields => .pure _

/-- A directive starts with a sign that could continue other parts: it is read only after its keyword. -/
theorem directiveType_predictive (room : Nat) (description : Option String) :
    Predictive (directiveType room description) := by
  have hon : IsName "on".toList := by decide
  refine (predictive_expect .atSign trivial).bind fun _ => ?_
  refine incremental_name.bind fun name => ?_
  refine (inputValues_incremental room rfl .parenClose trivial rfl).bind fun arguments => ?_
  have hlocations : ∀ repeatable, Incremental (do
      expect (.name "on")
      let locations ← separated .pipe TokenParser.name
      pure ({ name, description, arguments, repeatable, locations } : DirectiveType)) := by
    intro repeatable
    refine (incremental_expect (.name "on") hon (by decide)).bind fun _ => ?_
    exact (incremental_separated incremental_name rfl).bind fun locations => .pure _
  exact incremental_accept_bind rfl (hlocations true).predictive (hlocations false)

theorem afterKeyword?_predictive {room : Nat} {keyword : String} {description : Option String}
    {p : TokenParser Definition} (h : afterKeyword? room keyword description = some p) : Predictive p := by
  unfold afterKeyword? at h
  split at h
  · cases h
    exact (schemaRoot_incremental room description).predictive.map _
  · cases h
    exact (scalarType_incremental room description).predictive.map _
  · cases h
    exact (fieldsType_incremental room description).predictive.map _
  · cases h
    exact (fieldsType_incremental room description).predictive.map _
  · cases h
    exact (unionType_incremental room description).predictive.map _
  · cases h
    exact (enumType_incremental room description).predictive.map _
  · cases h
    exact (inputType_incremental room description).predictive.map _
  · cases h
    exact (directiveType_predictive room description).map _
  · cases h

theorem typeSystemDefinition_incremental (room : Nat) (description : Option String) :
    Incremental (typeSystemDefinition room description) := by
  have hword : IsName "schema".toList := by decide
  have hschema := ((schemaRoot_incremental room description).map Definition.schema).startable
  have hstart : Startable (typeSystemDefinition room description) :=
    .cons (t := .name "schema") hword (by decide) (fun _ => rfl) hschema.completable
  refine ⟨fun ts => ?_, hstart⟩
  cases ts with
  | nil => exact .refuse rfl hstart.completable nofun
  | cons t ts =>
    cases hp : (nameOf? (some t)).bind (afterKeyword? room · description) with
    | some p =>
      obtain ⟨keyword, -, hkeyword⟩ := Option.bind_eq_some_iff.mp hp
      refine .cons (fun more => ?_) (afterKeyword?_predictive hkeyword ts)
      refine bind_of rfl ?_
      simp only [List.head?_cons, hp]
      rfl
    | none =>
      refine .refuse_next (.expected .typeSystemDefinition) (fun more => ?_) hstart.completable ts
      refine bind_of rfl ?_
      simp only [List.head?_cons, hp]
      rfl

/-- What follows the place of a description. -/
def undescribed (room : Nat) (description : Option String) : TokenParser Definition := do
  match ← peek? with
  | none => fail (.expected .definition)
  | some t =>
    if isExecutable t then fail .executable
    else if t = .name "extend" ∧ description = none then do
      skip
      Definition.extension <$> typeSystemDefinition room none
    else if (nameOf? (some t)).isSome then typeSystemDefinition room description
    else fail (.expected .definition)

theorem undescribed_incremental (room : Nat) (description : Option String) :
    Incremental (undescribed room description) := by
  have hword : IsName "schema".toList := by decide
  have hschema := ((schemaRoot_incremental room description).map Definition.schema).startable
  have hstart : Startable (undescribed room description) :=
    .cons (t := .name "schema") hword (by decide) (fun _ => rfl) hschema.completable
  refine ⟨fun ts => ?_, hstart⟩
  cases ts with
  | nil => exact .refuse rfl hstart.completable nofun
  | cons t ts =>
    have hnext : ∀ more, undescribed room description (t :: more) =
        (if isExecutable t then fail .executable
        else if t = .name "extend" ∧ description = none then do
          skip
          Definition.extension <$> typeSystemDefinition room none
        else if (nameOf? (some t)).isSome then typeSystemDefinition room description
        else fail (.expected .definition)) (t :: more) := fun _ => rfl
    split_ifs at hnext with hrun hextend hname
    · exact .refuse_next _ hnext hstart.completable ts
    · exact .cons hnext (((typeSystemDefinition_incremental room none).predictive.map _) ts)
    · have hplain := (typeSystemDefinition_incremental room description).predictive
      refine (hplain (t :: ts)).congr (fun other hsame => ?_) (fun a hempty => ?_) hstart.completable
      · obtain ⟨more, rfl⟩ := List.head?_eq_some_iff.mp hsame
        exact hnext more
      · exact absurd ((hplain _).length_lt rfl hempty) (Nat.lt_irrefl _)
    · exact .refuse_next _ hnext hstart.completable ts

theorem definition_predictive (room : Nat) : Predictive (definition room) :=
  incremental_string?.predictive.bind (undescribed_incremental room)

/-- A document stops at the first token that no further tokens make right. -/
theorem document_stops {room : Nat} {ts : List Token} {fault : Fault} (h : document room ts = .error fault)
    (hcause : fault.cause ≠ .tooDeep) :
    ∃ front, ts = front ++ fault.unread ∧
      (∃ more, (∀ t ∈ more, t.Canonical) ∧ ∃ doc, document room (front ++ more) = .ok doc) ∧
      ∀ t, fault.unread.head? = some t → ∀ more, ∃ fault, document room (front ++ t :: more) = .error fault := by
  unfold document at h ⊢
  split at h
  · cases h
  · next fault' hparts =>
    cases h
    obtain ⟨front, hfront, ⟨more, hmore, ds, hdone⟩, hstop⟩ :=
      manyToEnd_stops (definition_predictive room) rfl hparts hcause
    refine ⟨front, hfront, ⟨more, hmore, ⟨ds⟩, by rw [hdone]⟩, fun t ht more => ?_⟩
    obtain ⟨fault', hfault⟩ := hstop t ht more
    exact ⟨fault', by rw [hfault]⟩

end Grammar

/-! ## Positions -/

namespace Position

/-- The position behind some characters: one line more than they end, one column more than they leave on
the last line. -/
def behind (front : List Char) : Position :=
  ⟨front.count '\n' + 1, (front.reverse.takeWhile fun c => c != '\n').length + 1⟩

theorem advance_append (p : Position) (front rest : List Char) :
    p.advance (front ++ rest) (byteLength front) = front.foldl next p := by
  induction front generalizing p with
  | nil =>
    cases rest with
    | nil => rfl
    | cons c rest =>
      have hpos := c.utf8Size_pos
      have hlarge : ¬ c.utf8Size ≤ byteLength [] := by
        simp only [byteLength, List.foldr_nil]
        omega
      rw [List.nil_append, advance, if_neg hlarge, List.foldl_nil]
  | cons c front ih =>
    have hbytes : byteLength (c :: front) = c.utf8Size + byteLength front := rfl
    rw [List.cons_append, hbytes, advance, if_pos (Nat.le_add_right _ _), Nat.add_sub_cancel_left, ih,
      List.foldl_cons]

theorem foldl_next (front : List Char) : front.foldl next start = behind front := by
  induction front using List.reverseRecOn with
  | nil => rfl
  | append_singleton front c ih =>
    rw [List.foldl_append, List.foldl_cons, List.foldl_nil, ih]
    by_cases hc : c = '\n'
    · subst hc
      simp [next, behind]
    · simp [next, behind, hc]

theorem ofOffset_byteLength (front rest : List Char) : ofOffset (front ++ rest) (byteLength front) = behind front := by
  rw [ofOffset, advance_append, foldl_next]

end Position

/-! ## Refusals -/

/-- Tokens that some accepted text begins with. -/
def Viable (front : List Token) : Prop :=
  ∃ text lexemes doc, tokenize text = .ok lexemes ∧ front <+: lexemes.map Lexeme.token ∧
    Document.ofChars text = .ok doc

/-- The text and the position that the refusal of a token names. -/
def ParseError.blamed? : ParseError → Option (String × Position)
  | unexpectedToken _ found position => some (found, position)
  | unsupportedDefinition found position => some (found, position)
  | _ => none

/-- A text of tokens, and of canonical tokens behind them, is accepted if the tokens are. -/
theorem viable_of_document {before : List Lexeme} (hspells : ∀ l ∈ before, l.token.Spells l.text.toList)
    {more : List Token} (hmore : ∀ t ∈ more, t.Canonical) {doc : Document}
    (hdoc : Grammar.document maxNesting (before.map Lexeme.token ++ more) = .ok doc) :
    Viable (before.map Lexeme.token) := by
  have hrow : ∀ p ∈ (before.map fun l => (l.token, l.text.toList)) ++ more.map fun t => (t, t.spelling),
      p.1.Spells p.2 :=
    List.forall_mem_append.mpr
      ⟨List.forall_mem_map.mpr hspells, List.forall_mem_map.mpr fun t ht => (hmore t ht).spells⟩
  obtain ⟨lexemes, htokens, hmap⟩ := tokenize_rowText hrow
  have hall : lexemes.map Lexeme.token = before.map Lexeme.token ++ more := by
    simpa [Function.comp_def] using hmap
  refine ⟨_, lexemes, doc, htokens, ⟨more, hall.symm⟩, ?_⟩
  rw [Document.ofChars_of_tokenize htokens, hall, hdoc]
  rfl

theorem not_viable_of_document {front : List Token} {t : Token}
    (h : ∀ more, ∃ fault, Grammar.document maxNesting (front ++ t :: more) = .error fault) :
    ¬ Viable (front ++ [t]) := by
  rintro ⟨text, lexemes, doc, htokens, ⟨more, hmore⟩, hdoc⟩
  obtain ⟨fault, hfault⟩ := h more
  rw [List.append_assoc, List.singleton_append] at hmore
  rw [Document.ofChars_of_tokenize htokens, ← hmore, hfault] at hdoc
  cases hdoc

namespace ParseError

theorem ofFault_tooDeep (source : List Char) (lexemes : List Lexeme) {fault : Fault} (h : fault.cause = .tooDeep) :
    ∃ position, ofFault source lexemes fault = .nestingTooDeep position := by
  unfold ofFault
  rw [h]
  cases lexemes.drop (lexemes.length - fault.unread.length) with
  | nil => exact ⟨_, rfl⟩
  | cons l after => exact ⟨_, rfl⟩

theorem ofFault_end (source : List Char) (lexemes : List Lexeme) {fault : Fault} (h : fault.cause ≠ .tooDeep)
    (hunread : fault.unread = []) : ∃ what, ofFault source lexemes fault = .unexpectedEnd what := by
  have hdrop : lexemes.drop (lexemes.length - fault.unread.length) = [] := by
    simp [hunread]
  unfold ofFault
  rw [hdrop]
  cases hcause : fault.cause with
  | expected what => exact ⟨what, rfl⟩
  | executable => exact ⟨.definition, rfl⟩
  | tooDeep => exact absurd hcause h

theorem blamed?_ofFault (source : List Char) (before : List Lexeme) (l : Lexeme) (after : List Lexeme) {fault : Fault}
    (h : fault.cause ≠ .tooDeep) (hunread : fault.unread = (l :: after).map Lexeme.token) :
    (ofFault source (before ++ l :: after) fault).blamed? = some (l.text, Position.ofOffset source l.start) := by
  have hdrop : (before ++ l :: after).drop ((before ++ l :: after).length - fault.unread.length) = l :: after := by
    rw [hunread, List.length_map, List.length_append, Nat.add_sub_cancel, List.drop_left]
  unfold ofFault
  rw [hdrop]
  cases hcause : fault.cause with
  | expected what => rfl
  | executable => rfl
  | tooDeep => exact absurd hcause h

end ParseError

theorem Document.exists_fault {text : List Char} {lexemes : List Lexeme} {error : ParseError}
    (htokens : tokenize (Text.dropByteOrderMark text) = .ok lexemes) (hparse : Document.ofChars text = .error error) :
    ∃ fault, Grammar.document maxNesting (lexemes.map Lexeme.token) = .error fault ∧
      error = ParseError.ofFault (Text.dropByteOrderMark text) lexemes fault := by
  simp only [Document.ofChars, htokens] at hparse
  cases hdocument : Grammar.document maxNesting (lexemes.map Lexeme.token) with
  | ok doc =>
    rw [hdocument] at hparse
    cases hparse
  | error fault =>
    rw [hdocument] at hparse
    exact ⟨fault, rfl, (Except.error.inj hparse).symm⟩

/-- A schema is refused at the first token that no further tokens make right, or at the end of tokens that
some further ones make right. -/
theorem Document.refused_at_first_wrong_token {text : List Char} {lexemes : List Lexeme} {error : ParseError}
    (htokens : tokenize (Text.dropByteOrderMark text) = .ok lexemes) (hparse : Document.ofChars text = .error error) :
    (∀ found position, error.blamed? = some (found, position) →
      ∃ before l after front rest, lexemes = before ++ l :: after ∧
        Text.dropByteOrderMark text = front ++ l.text.toList ++ rest ∧
        l.start = byteLength front ∧ l.stop = byteLength (front ++ l.text.toList) ∧
        found = l.text ∧ position = Position.behind front ∧
        Viable (before.map Lexeme.token) ∧ ¬ Viable ((before ++ [l]).map Lexeme.token)) ∧
    ∀ what, error = .unexpectedEnd what → Viable (lexemes.map Lexeme.token) := by
  obtain ⟨fault, hdocument, rfl⟩ := Document.exists_fault htokens hparse
  generalize Text.dropByteOrderMark text = source at *
  by_cases hcause : fault.cause = .tooDeep
  · obtain ⟨position, hdeep⟩ := ParseError.ofFault_tooDeep source lexemes hcause
    rw [hdeep]
    exact ⟨nofun, nofun⟩
  obtain ⟨layout, hlayout, rfl⟩ := exists_layout_of_tokenize htokens
  obtain ⟨front, hfront, ⟨more, hmore, doc, hdoc⟩, hstop⟩ := Grammar.document_stops hdocument hcause
  obtain ⟨before, after, hlexemes, rfl, hunread⟩ := List.map_eq_append_iff.mp hfront
  have hspells : ∀ l ∈ before, l.token.Spells l.text.toList := fun l hl =>
    hlayout.lexemes_spells (hlexemes ▸ List.mem_append_left _ hl)
  have hviable := viable_of_document hspells hmore hdoc
  cases after with
  | nil =>
    obtain ⟨what, hend⟩ := ParseError.ofFault_end source layout.lexemes hcause hunread.symm
    rw [hend]
    refine ⟨nofun, fun _ _ => ?_⟩
    rwa [hlexemes, List.append_nil]
  | cons l after =>
    have hblamed := ParseError.blamed?_ofFault source before l after hcause hunread.symm
    rw [← hlexemes] at hblamed
    refine ⟨fun found position h => ?_, fun what h => ?_⟩
    · obtain ⟨rfl, rfl⟩ := Prod.mk.inj (Option.some.inj (h.symm.trans hblamed))
      have hl : l ∈ layout.lexemes := by simp [hlexemes]
      obtain ⟨front, rest, hsource, -, hstart, hend⟩ := hlayout.lexemes_span hl
      refine ⟨before, l, after, front, rest, hlexemes, hsource, hstart, hend, rfl, ?_, hviable, ?_⟩
      · rw [hstart, hsource, List.append_assoc, Position.ofOffset_byteLength]
      · rw [List.map_append]
        exact not_viable_of_document (hstop l.token (by rw [← hunread]; rfl))
    · rw [h] at hblamed
      cases hblamed

/-- A query with a description, and a union that lacks its members. -/
theorem Document.refused_at_first_wrong_token_query :
    Document.ofChars "\"\"\"d\"\"\"\n query".toList = .error (.unsupportedDefinition "query" ⟨2, 2⟩) ∧
    (Viable [.blockString "d"] ∧ ¬ Viable [.blockString "d", .name "query"]) ∧
    Document.ofChars "union U =".toList = .error (.unexpectedEnd .name) ∧
    Viable [.name "union", .name "U", .equals] := by
  have hquery : tokenize (Text.dropByteOrderMark "\"\"\"d\"\"\"\n query".toList) =
      .ok [⟨.blockString "d", "\"\"\"d\"\"\"", 0, 7⟩, ⟨.name "query", "query", 9, 14⟩] := by decide +kernel
  have hrefused : Document.ofChars "\"\"\"d\"\"\"\n query".toList =
      .error (.unsupportedDefinition "query" ⟨2, 2⟩) := (Document.ofChars_of_tokenize hquery).trans rfl
  have hunion : tokenize (Text.dropByteOrderMark "union U =".toList) =
      .ok [⟨.name "union", "union", 0, 5⟩, ⟨.name "U", "U", 6, 7⟩, ⟨.equals, "=", 8, 9⟩] := by decide +kernel
  have hend : Document.ofChars "union U =".toList = .error (.unexpectedEnd .name) :=
    (Document.ofChars_of_tokenize hunion).trans rfl
  refine ⟨hrefused, ?_, hend, (refused_at_first_wrong_token hunion hend).2 _ rfl⟩
  obtain ⟨before, l, after, -, -, hsplit, -, -, -, htext, -, hviable, hnot⟩ :=
    (refused_at_first_wrong_token hquery hrefused).1 _ _ rfl
  cases before with
  | nil =>
    cases hsplit
    exact absurd htext (by decide)
  | cons a before =>
    cases before with
    | nil =>
      cases hsplit
      exact ⟨hviable, hnot⟩
    | cons b before => simp at hsplit

end SchemaModels
