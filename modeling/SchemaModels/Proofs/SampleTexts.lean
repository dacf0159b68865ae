import SchemaModels.Proofs.BlockRoundTrip
import SchemaModels.Proofs.RoundTrip
import SchemaModels.Samples

/-! The sample schemas as documents. A text is read token by token from the left, each token with all that
follows it in place; what is fixed in a sample is read off by evaluation, and a number behind a word goes on
with the word's name. So for every size the samples are accepted, as documents that are written out here. -/

namespace SchemaModels
set_option autoImplicit false

/-! ## Reading from the left -/

/-- The tokens of a text, each read behind the gap at the start of what is left. -/
inductive Reads : List Char → List Token → Prop
  | done {cs : List Char} : (splitGap false cs).2 = [] → Reads cs []
  | token {cs : List Char} {r : Reading} {ts : List Token} : Reading.ofChars (splitGap false cs).2 = .ok r →
    Reads r.rest ts → Reads cs (r.token :: ts)

/-- Reads a number of tokens off a text, and gives what follows them. -/
def readOff : Nat → List Char → Option (List Token × List Char)
  | 0, cs => some ([], cs)
  | n + 1, cs =>
    match Reading.ofChars (splitGap false cs).2 with
    | .ok r => (readOff n r.rest).map fun found => (r.token :: found.1, found.2)
    | .error _ => none

namespace Reads

theorem scanFrom_eq {cs : List Char} {ts : List Token} (h : Reads cs ts) (found : List Lexeme) (offset : Nat) :
    ∃ ls, Lexeme.scanFrom found offset cs = .ok (found.reverse ++ ls) ∧ ls.map Lexeme.token = ts := by
  induction h generalizing found offset with
  | @done cs hend =>
    refine ⟨[], ?_, rfl⟩
    rw [List.append_nil]
    exact Lexeme.scanFrom_end found offset (Prod.ext rfl hend)
  | @token cs r ts hread _ ih =>
    rw [Lexeme.scanFrom_step found offset rfl hread]
    obtain ⟨ls, hscan, hmap⟩ := ih (⟨r.token, String.ofList r.text, offset + byteLength (splitGap false cs).1,
      offset + byteLength (splitGap false cs).1 + byteLength r.text⟩ :: found) _
    exact ⟨_ :: ls, by rw [hscan, List.reverse_cons, List.append_assoc]; rfl, by rw [List.map_cons, hmap]⟩

theorem tokenize_eq {cs : List Char} {ts : List Token} (h : Reads cs ts) :
    ∃ lexemes, tokenize cs = .ok lexemes ∧ lexemes.map Lexeme.token = ts := by
  obtain ⟨ls, hscan, hmap⟩ := h.scanFrom_eq [] 0
  refine ⟨ls, ?_, hmap⟩
  rw [tokenize, Lexeme.scan, hscan]
  rfl

theorem ignored {c : Char} {cs : List Char} {ts : List Token} (h : Reads cs ts) (hc : isIgnored c = true) :
    Reads (c :: cs) ts := by
  have hgap : (splitGap false (c :: cs)).2 = (splitGap false cs).2 := by
    have hhash : c ≠ '#' := by
      rintro rfl
      cases hc
    simp [splitGap, hc, hhash]
  cases h with
  | done hend => exact .done (hgap.trans hend)
  | token hread hrest => exact .token (hgap.symm ▸ hread) hrest

theorem of_readOff {n : Nat} {cs rest : List Char} {ts more : List Token} (h : readOff n cs = some (ts, rest))
    (hrest : Reads rest more) : Reads cs (ts ++ more) := by
  induction n generalizing cs ts with
  | zero =>
    cases h
    exact hrest
  | succ n ih =>
    rw [readOff] at h
    split at h
    · next r hread =>
      obtain ⟨found, hfound, hpair⟩ := Option.map_eq_some_iff.mp h
      cases hpair
      exact .token hread (ih hfound)
    · cases h

end Reads

/-! ## Numbered names -/

/-- A word with a number behind it. -/
def numbered (word : String) (number : Nat) : String :=
  word ++ toString number

theorem isDigit_of_mem_toString {number : Nat} {c : Char} (h : c ∈ (toString number).toList) : c.isDigit = true := by
  rw [Nat.toString_eq_ofList_toDigits, String.toList_ofList] at h
  exact Nat.isDigit_of_mem_toDigits (by decide) (by decide) h

instance (name : String) : Decidable (ValidName name) :=
  inferInstanceAs (Decidable (IsName name.toList))

theorem validName_numbered {word : String} (h : ValidName word) (number : Nat) : ValidName (numbered word number) := by
  obtain ⟨c, cs, hcons, hc, hcs⟩ := h
  refine ⟨c, cs ++ (toString number).toList, ?_, hc, ?_⟩
  · rw [numbered, String.toList_append, hcons, List.cons_append]
  · refine List.forall_mem_append.mpr ⟨hcs, fun d hd => ?_⟩
    rw [isNamePart, isDigit_of_mem_toString hd, Bool.or_true]

def hasDigit (text : String) : Bool :=
  text.toList.any Char.isDigit

theorem hasDigit_numbered (word : String) (number : Nat) : hasDigit (numbered word number) = true := by
  have hne : (toString number).toList ≠ [] := by
    rw [Nat.toString_eq_ofList_toDigits, String.toList_ofList]
    exact Nat.toDigits_ne_nil
  obtain ⟨c, hc⟩ := List.exists_mem_of_ne_nil _ hne
  rw [hasDigit, numbered, String.toList_append, List.any_eq_true]
  exact ⟨c, List.mem_append_right _ hc, isDigit_of_mem_toString hc⟩

theorem numbered_ne {word plain : String} (number : Nat) (h : hasDigit plain = false) : numbered word number ≠ plain := by
  rintro rfl
  exact Bool.false_ne_true (h.symm.trans (hasDigit_numbered word number))

/-- A number behind a word without digits can be told from the word. -/
theorem numbered_inj {word other : String} (hword : hasDigit word = false) (hother : hasDigit other = false) {i j : Nat} :
    numbered word i = numbered other j ↔ word = other ∧ i = j := by
  have hcut : ∀ (text : String) (number : Nat), hasDigit text = false →
      (numbered text number).toList.takeWhile (!·.isDigit) = text.toList ∧
        (numbered text number).toList.dropWhile (!·.isDigit) = (toString number).toList := by
    intro text number htext
    rw [numbered, String.toList_append]
    refine span_append (fun c hc => ?_) fun c hc => ?_
    · rw [hasDigit, List.any_eq_false] at htext
      simpa using htext c hc
    · simpa using isDigit_of_mem_toString (List.mem_of_head? hc)
  constructor
  · intro h
    obtain ⟨hfront, hback⟩ := hcut word i hword
    obtain ⟨hfront', hback'⟩ := hcut other j hother
    rw [h] at hfront hback
    have hdigits := hback.symm.trans hback'
    rw [Nat.toString_eq_ofList_toDigits, Nat.toString_eq_ofList_toDigits, String.toList_ofList,
      String.toList_ofList] at hdigits
    have hnumber := congrArg (Nat.ofDigitChars 10 · 0) hdigits
    simp only [Nat.ofDigitChars_ten_toDigits] at hnumber
    exact ⟨String.toList_inj.mp (hfront.symm.trans hfront'), hnumber⟩
  · rintro ⟨rfl, rfl⟩
    rfl

theorem numbered_apart {word other : String} (hword : hasDigit word = false) (hother : hasDigit other = false)
    (hne : word ≠ other) (i j : Nat) : numbered word i ≠ numbered other j := fun he =>
  hne ((numbered_inj hword hother).mp he).1

theorem Reading.ofChars_name_apart {text : List Char} (h : IsName text) (rest : List Char)
    (hrest : ∀ c, rest.head? = some c → isNamePart c = false) :
    ofChars (text ++ rest) = .ok ⟨.name (String.ofList text), text, rest⟩ := by
  obtain ⟨c, cs, rfl, hc, hcs⟩ := h
  obtain ⟨hnone, hquote, hpoint⟩ := ofChar?_of_nameStart hc
  obtain ⟨htake, hdrop⟩ := span_append hcs hrest
  rw [List.cons_append, ofChars_plain hquote hpoint, hnone]
  simp only [hc, if_true, name, htake, hdrop]

/-- Some tokens and then a numbered name are read, up to a character that is no part of a name. -/
theorem Reads.then_numbered (n : Nat) {word : String} (hword : ValidName word) (number : Nat)
    {cs rest after : List Char} {c : Char} {tokens ts more : List Token} (hafter : Reads (c :: after) more)
    (h : readOff n cs = some (ts, rest) := by rfl)
    (hgap : (splitGap false rest).2 = word.toList ++ ((toString number).toList ++ c :: after) := by rfl)
    (htokens : tokens = ts ++ .name (numbered word number) :: more := by rfl)
    (hc : isNamePart c = false := by rfl) : Reads cs tokens := by
  have hread := Reading.ofChars_name_apart (validName_numbered hword number) (c :: after) fun x hx =>
    Option.some.inj hx ▸ hc
  rw [String.ofList_toList, numbered, String.toList_append, List.append_assoc, ← hgap] at hread
  rw [htokens]
  exact of_readOff h (.token hread hafter)

/-! ## Descriptions in triple quotes -/

namespace BlockString

/-- A text of one line that needs no escapes and is not blank. -/
structure Plain (text : List Char) : Prop where
  chars : ∀ c ∈ text, c ≠ '"' ∧ c ≠ '\\' ∧ c ≠ '\n' ∧ c ≠ '\r'
  seen : isBlankLine text = false

theorem body?_of_plain {text : List Char} (h : ∀ c ∈ text, c ≠ '"' ∧ c ≠ '\\') (rest : List Char) :
    body? (text ++ (tripleQuote ++ rest)) = some (text, rest) := by
  induction text with
  | nil => rfl
  | cons c text ih =>
    obtain ⟨⟨hquote, hslash⟩, hmore⟩ := List.forall_mem_cons.mp h
    rw [List.cons_append, body?, ih hmore]
    · rfl
    · exact fun _ he => absurd he hslash
    · exact fun _ he => absurd he hquote

theorem unescape_of_plain {text : List Char} (h : ∀ c ∈ text, c ≠ '\\') : unescape text = text := by
  induction text with
  | nil => rfl
  | cons c text ih =>
    obtain ⟨hslash, hmore⟩ := List.forall_mem_cons.mp h
    rw [unescape, ih hmore]
    exact fun _ he => absurd he hslash

theorem Plain.value_eq {text : List Char} (h : Plain text) : value text = text := by
  have hlines : lines text = [text] := by
    rw [lines_eq_splitOn fun hmem => (h.chars _ hmem).2.2.2 rfl]
    exact List.splitOn_eq_singleton fun hmem => (h.chars _ hmem).2.2.1 rfl
  rw [value, hlines]
  simp [dedent, dropBlankEnds, h.seen]

end BlockString

theorem Reads.behind_description {text rest : List Char} {more : List Token} (h : BlockString.Plain text)
    (hrest : Reads rest more) :
    Reads (tripleQuote ++ (text ++ (tripleQuote ++ rest))) (.blockString (String.ofList text) :: more) := by
  have hbody := BlockString.body?_of_plain (fun c hc => ⟨(h.chars c hc).1, (h.chars c hc).2.1⟩) rest
  have hread : Reading.ofChars (tripleQuote ++ (text ++ (tripleQuote ++ rest))) =
      .ok ⟨.blockString (String.ofList text), tripleQuote ++ text ++ tripleQuote, rest⟩ := by
    change Reading.blockString (text ++ (tripleQuote ++ rest)) = _
    rw [Reading.blockString, hbody]
    simp only [BlockString.unescape_of_plain fun c hc => (h.chars c hc).2.1, h.value_eq]
    rfl
  exact .token (r := ⟨.blockString (String.ofList text), tripleQuote ++ text ++ tripleQuote, rest⟩) hread hrest

/-- The tokens of a plain definition with its description in triple quotes. -/
def Definition.blockTokens (d : Definition) : List Token :=
  (d.description?.map Token.blockString).toList ++ .name d.keyword :: d.contents

namespace Grammar

open TokenParser

theorem definition_blockTokens {room : Nat} {d : Definition} (h : d.WellFormed room) (hplain : d.isExtension = false) :
    ReadsBack (definition room) Definition.blockTokens definitionMarks d := by
  intro rest hrest
  have hread := definition_plain h hplain hrest
  rw [Definition.tokens_plain hplain] at hread
  rw [Definition.blockTokens]
  -- both forms of a string begin a description
  cases hdescription : d.description? with
  | none => rwa [hdescription] at hread
  | some text => rwa [hdescription] at hread

theorem blockTokens_start {d : Definition} (hplain : d.isExtension = false) :
    ∃ t ts, d.blockTokens = t :: ts ∧ t ∉ definitionMarks := by
  obtain ⟨-, -, himplements⟩ := keyword_apart (Definition.keyword_mem hplain)
  rw [Definition.blockTokens]
  cases d.description? with
  | none => exact ⟨_, _, rfl, by simp [definitionMarks, himplements]⟩
  | some text => exact ⟨_, _, rfl, by simp [definitionMarks]⟩

theorem document_blockTokens {room : Nat} {ds : List Definition} (h : ∀ d ∈ ds, d.WellFormed room)
    (hplain : ∀ d ∈ ds, d.isExtension = false) : document room (ds.flatMap Definition.blockTokens) = .ok ⟨ds⟩ := by
  have hmany : manyToEnd (definition room) (ds.flatMap Definition.blockTokens) = .ok ds := by
    refine manyToEndFrom_spelled (fun d hd => definition_blockTokens (h d hd) (hplain d hd))
      (fun d hd => blockTokens_start (hplain d hd)) _ (length_le_flatMap fun d hd => ?_)
    obtain ⟨t, ts, htokens, -⟩ := blockTokens_start (hplain d hd)
    exact htokens ▸ List.cons_ne_nil t ts
  rw [document, hmany]

end Grammar

/-- A text that is read as the tokens of plain definitions is parsed as the document of these. -/
theorem Document.parse_of_reads {text : String} {ds : List Definition} (h : Document.WellFormed ⟨ds⟩)
    (hplain : ∀ d ∈ ds, d.isExtension = false) (hreads : Reads text.toList (ds.flatMap Definition.blockTokens)) :
    Document.parse text = .ok ⟨ds⟩ := by
  obtain ⟨lexemes, htokens, hmap⟩ := hreads.tokenize_eq
  rw [Document.parse, Document.ofChars_of_tokenize htokens, hmap, Grammar.document_blockTokens h hplain]
  rfl

/-! ## The documents -/

namespace Samples

/-- An interface on the ring, with a field that points at another. -/
def ringInterface (i j : Nat) : FieldsType :=
  { name := numbered "Ring" i, fields := [{ name := "next", type := .nonNull (.named (numbered "Ring" j)) }] }

def ringDocument (size : Nat) : Document :=
  ⟨(List.range size).map fun i => .interface (ringInterface i (following size i))⟩

/-- The fields that a group's interface has. -/
def nodeFields (j : Nat) : List Field :=
  [{ name := "id", type := .nonNull (.named "ID") }, { name := "parent", type := .named (numbered "Node" j) }]

def node (i j : Nat) : FieldsType :=
  { name := numbered "Node" i
    description := some ("Entity number " ++ toString i ++ ".")
    fields := nodeFields j }

def item (i j : Nat) : FieldsType :=
  { name := numbered "Item" i
    interfaces := [numbered "Node" i]
    fields := nodeFields j ++
      [{ name := "name", type := .nonNull (.named "String") },
        { name := "tags", type := .nonNull (.list (.nonNull (.named "String"))) },
        { name := "createdAt", type := .named "DateTime" },
        { name := "payload", type := .named "JSON" },
        { name := "from", type := .named (numbered "Item" j) },
        { name := "status", type := .named (numbered "Status" i) }] }

def filter (i j : Nat) : InputType :=
  { name := numbered "ItemFilter" i
    fields :=
      [{ name := "name", type := .named "String" },
        { name := "status", type := .named (numbered "Status" i), default := some (.enum "ACTIVE") },
        { name := "and", type := .list (.nonNull (.named (numbered "ItemFilter" j))) }] }

def status (i : Nat) : EnumType :=
  { name := numbered "Status" i, values := [{ name := "ACTIVE" }, { name := "ARCHIVED" }, { name := "DELETED" }] }

def result (i j : Nat) : UnionType :=
  { name := numbered "Result" i, members := [numbered "Item" i, numbered "Item" j] }

def groupDefinitions (i j : Nat) : List Definition :=
  [.interface (node i j), .object (item i j), .input (filter i j), .enum (status i), .union (result i j)]

def groupsDocument (size : Nat) : Document :=
  ⟨.scalar { name := "DateTime" } :: .scalar { name := "JSON" } ::
    (List.range size).flatMap fun i => groupDefinitions i (following size i)⟩

/-! ## Reading the samples -/

theorem reads_ringLine (i j : Nat) {rest : List Char} {more : List Token} (h : Reads rest more) :
    Reads (("interface Ring" ++ toString i ++ " \x7b next: Ring" ++ toString j ++ "! \x7d\n").toList ++ rest)
      ((Definition.interface (ringInterface i j)).blockTokens ++ more) := by
  have hword : ValidName "Ring" := by decide
  have hend : Reads ('\n' :: rest) more := h.ignored rfl
  simp only [String.toList_append, List.append_assoc]
  refine .then_numbered 1 hword i ?_
  refine .then_numbered 3 hword j ?_
  exact .of_readOff (n := 2) rfl hend

theorem plain_entity (i : Nat) : BlockString.Plain ("Entity number " ++ toString i ++ ".").toList := by
  have hdigit : ∀ c : Char, c.isDigit = true → c ≠ '"' ∧ c ≠ '\\' ∧ c ≠ '\n' ∧ c ≠ '\r' := by
    intro c hc
    refine ⟨?_, ?_, ?_, ?_⟩ <;>
    · rintro rfl
      cases hc
  have hfixed : ∀ cs : List Char, (cs.all fun c => c != '"' && c != '\\' && c != '\n' && c != '\r') = true →
      ∀ c ∈ cs, c ≠ '"' ∧ c ≠ '\\' ∧ c ≠ '\n' ∧ c ≠ '\r' := by
    intro cs hcs c hc
    simpa [and_assoc] using List.all_eq_true.mp hcs c hc
  constructor
  · simp only [String.toList_append, List.forall_mem_append]
    exact ⟨⟨hfixed _ rfl, fun c hc => hdigit c (isDigit_of_mem_toString hc)⟩, hfixed _ rfl⟩
  · rw [String.toList_append, String.toList_append, List.append_assoc]
    rfl

theorem reads_entity (i : Nat) {rest : List Char} {more : List Token} (h : Reads ('\n' :: rest) more) :
    Reads ("\"\"\"Entity number ".toList ++ ((toString i).toList ++ (".\"\"\"\n".toList ++ rest)))
      (.blockString ("Entity number " ++ toString i ++ ".") :: more) := by
  have hreads := Reads.behind_description (plain_entity i) h
  rw [String.ofList_toList, String.toList_append, String.toList_append, List.append_assoc, List.append_assoc] at hreads
  exact hreads

theorem reads_group (i j : Nat) {rest : List Char} {more : List Token} (h : Reads rest more) :
    Reads ((group i j).toList ++ rest) ((groupDefinitions i j).flatMap Definition.blockTokens ++ more) := by
  have hnode : ValidName "Node" := by decide
  have hitem : ValidName "Item" := by decide
  have hfilter : ValidName "ItemFilter" := by decide
  have hstatus : ValidName "Status" := by decide
  have hresult : ValidName "Result" := by decide
  have hend : Reads ('\n' :: '\n' :: rest) more := (h.ignored rfl).ignored rfl
  unfold group
  extract_lets number other
  simp only [String.toList_append, List.append_assoc]
  refine reads_entity i ?_
  -- the interface
  refine .then_numbered 1 hnode i ?_
  refine .then_numbered 7 hnode j ?_
  -- the object type
  refine .then_numbered 2 hitem i ?_
  refine .then_numbered 1 hnode i ?_
  refine .then_numbered 7 hnode j ?_
  refine .then_numbered 19 hitem j ?_
  refine .then_numbered 2 hstatus i ?_
  -- the input type
  refine .then_numbered 2 hfilter i ?_
  refine .then_numbered 6 hstatus i ?_
  refine .then_numbered 5 hfilter j ?_
  -- the enum and the union
  refine .then_numbered 4 hstatus i ?_
  refine .then_numbered 6 hresult i ?_
  refine .then_numbered 1 hitem i ?_
  exact .then_numbered 1 hitem j hend

/-- Texts that are read one after another, whatever follows each. -/
theorem reads_join {text : Nat → String} {tokens : Nat → List Token}
    (h : ∀ i rest more, Reads rest more → Reads ((text i).toList ++ rest) (tokens i ++ more)) (numbers : List Nat) :
    Reads (String.join (numbers.map text)).toList (numbers.flatMap tokens) := by
  rw [String.toList_join]
  induction numbers with
  | nil => exact .done rfl
  | cons i numbers ih =>
    rw [List.map_cons, List.flatMap_cons, List.flatMap_cons]
    exact h i _ _ ih

/-! ## The samples are accepted -/

theorem field_wellFormed {name : String} {type : TypeExpr} (hname : ValidName name) (htype : type.WellFormed maxNesting) :
    Field.WellFormed maxNesting { name, type } :=
  ⟨hname, List.forall_mem_nil _, htype, List.forall_mem_nil _⟩

theorem inputValue_wellFormed {name : String} {type : TypeExpr} {default : Option Value} (hname : ValidName name)
    (htype : type.WellFormed maxNesting) (hdefault : ∀ value, default = some value → value.WellFormed maxNesting) :
    InputValue.WellFormed maxNesting { name, type, default } :=
  ⟨hname, htype, hdefault, List.forall_mem_nil _⟩

theorem ringDocument_wellFormed (size : Nat) : (ringDocument size).WellFormed := by
  refine List.forall_mem_map.mpr fun i _ => ⟨validName_numbered (by decide) i, List.forall_mem_nil _, List.forall_mem_nil _, ?_⟩
  refine List.forall_mem_singleton.mpr (field_wellFormed (by decide) ?_)
  exact .nonNull (.named (validName_numbered (by decide) _)) nofun

theorem parse_ring (size : Nat) : Document.parse (ring size) = .ok (ringDocument size) := by
  refine Document.parse_of_reads (ringDocument_wellFormed size) (List.forall_mem_map.mpr fun _ _ => rfl) ?_
  rw [List.flatMap_map]
  exact reads_join (fun i _ _ h => reads_ringLine i (following size i) h) _

theorem nodeFields_wellFormed (j : Nat) : ∀ f ∈ nodeFields j, f.WellFormed maxNesting := by
  refine List.forall_mem_cons.mpr ⟨?_, List.forall_mem_singleton.mpr ?_⟩
  · exact field_wellFormed (by decide) (.nonNull (.named (by decide)) nofun)
  · exact field_wellFormed (by decide) (.named (validName_numbered (by decide) j))

theorem item_wellFormed (i j : Nat) : (item i j).WellFormed maxNesting := by
  have hstring : ∀ room, (TypeExpr.nonNull (.named "String")).WellFormed room := fun _ => .nonNull (.named (by decide)) nofun
  have htags : (TypeExpr.nonNull (.list (.nonNull (.named "String")))).WellFormed maxNesting :=
    .nonNull (.list (hstring 127)) nofun
  refine ⟨validName_numbered (by decide) i, List.forall_mem_singleton.mpr (validName_numbered (by decide) i),
    List.forall_mem_nil _, List.forall_mem_append.mpr ⟨nodeFields_wellFormed j, ?_⟩⟩
  simp only [List.forall_mem_cons]
  exact ⟨field_wellFormed (by decide) (hstring _), field_wellFormed (by decide) htags,
    field_wellFormed (by decide) (.named (by decide)), field_wellFormed (by decide) (.named (by decide)),
    field_wellFormed (by decide) (.named (validName_numbered (by decide) j)),
    field_wellFormed (by decide) (.named (validName_numbered (by decide) i)), List.forall_mem_nil _⟩

theorem filter_wellFormed (i j : Nat) : (filter i j).WellFormed maxNesting := by
  have hdefault : ∀ value, some (Value.enum "ACTIVE") = some value → value.WellFormed maxNesting := by
    rintro _ ⟨⟩
    exact .enum (by decide) (by decide)
  have hfilters : (TypeExpr.list (.nonNull (.named (numbered "ItemFilter" j)))).WellFormed maxNesting :=
    .list (.nonNull (.named (validName_numbered (by decide) j)) nofun)
  refine ⟨validName_numbered (by decide) i, List.forall_mem_nil _, ?_⟩
  simp only [filter, List.forall_mem_cons]
  exact ⟨inputValue_wellFormed (by decide) (.named (by decide)) nofun,
    inputValue_wellFormed (by decide) (.named (validName_numbered (by decide) i)) hdefault,
    inputValue_wellFormed (by decide) hfilters nofun, List.forall_mem_nil _⟩

theorem groupDefinitions_wellFormed (i j : Nat) : ∀ d ∈ groupDefinitions i j, d.WellFormed maxNesting := by
  have hnode : (node i j).WellFormed maxNesting :=
    ⟨validName_numbered (by decide) i, List.forall_mem_nil _, List.forall_mem_nil _, nodeFields_wellFormed j⟩
  have hstatus : (status i).WellFormed maxNesting := by
    refine ⟨validName_numbered (by decide) i, List.forall_mem_nil _, ?_⟩
    simp only [status, List.forall_mem_cons]
    exact ⟨⟨by decide, List.forall_mem_nil _⟩, ⟨by decide, List.forall_mem_nil _⟩, ⟨by decide, List.forall_mem_nil _⟩,
      List.forall_mem_nil _⟩
  have hresult : (result i j).WellFormed maxNesting := by
    refine ⟨validName_numbered (by decide) i, List.forall_mem_nil _, List.forall_mem_cons.mpr ⟨?_, ?_⟩⟩
    · exact validName_numbered (by decide) i
    · exact List.forall_mem_singleton.mpr (validName_numbered (by decide) j)
  simp only [groupDefinitions, List.forall_mem_cons]
  exact ⟨hnode, item_wellFormed i j, filter_wellFormed i j, hstatus, hresult, List.forall_mem_nil _⟩

theorem groupsDocument_wellFormed (size : Nat) : (groupsDocument size).WellFormed := by
  refine List.forall_mem_cons.mpr ⟨⟨by decide, List.forall_mem_nil _⟩, List.forall_mem_cons.mpr
    ⟨⟨by decide, List.forall_mem_nil _⟩, List.forall_mem_flatMap.mpr fun i _ => ?_⟩⟩
  exact groupDefinitions_wellFormed i _

theorem groupsDocument_plain (size : Nat) : ∀ d ∈ (groupsDocument size).definitions, d.isExtension = false := by
  refine List.forall_mem_cons.mpr ⟨rfl, List.forall_mem_cons.mpr ⟨rfl, List.forall_mem_flatMap.mpr fun i _ => ?_⟩⟩
  simp [groupDefinitions, Definition.isExtension]

theorem parse_groups (size : Nat) : Document.parse (groups size) = .ok (groupsDocument size) := by
  have hgroups := reads_join (fun i _ _ h => reads_group i (following size i) h) (List.range size)
  refine Document.parse_of_reads (groupsDocument_wellFormed size) (groupsDocument_plain size) ?_
  unfold groups
  rw [String.toList_append, List.flatMap_cons, List.flatMap_cons, List.flatMap_assoc, ← List.append_assoc]
  exact .of_readOff (n := 4) rfl ((hgroups.ignored (c := '\n') rfl).ignored (c := '\n') rfl)

end Samples

end SchemaModels
