import SchemaModels.Proofs.Printing

/-! Reading printed documents back. What a part is printed as is read as that part, unless the next
token would continue it; the tokens that would are told apart from all that can follow. So a
well-formed document is parsed back from its canonical text, and parsing and well-formedness fit each
other exactly. -/

namespace SchemaModels
set_option autoImplicit false

/-! ## Reading parts back -/

/-- None of some tokens comes next. -/
def Avoids (marks rest : List Token) : Prop :=
  ∀ t ∈ marks, rest.head? ≠ some t

theorem avoids_cons {marks : List Token} {t : Token} (h : t ∉ marks) (rest : List Token) :
    Avoids marks (t :: rest) := by
  intro u hu he
  rw [List.head?_cons, Option.some.injEq] at he
  exact h (he ▸ hu)

theorem Avoids.mono {marks marks' rest : List Token} (h : Avoids marks rest) (hsub : marks' ⊆ marks) :
    Avoids marks' rest :=
  fun t ht => h t (hsub ht)

namespace TokenParser

variable {α β : Type}

theorem bind_of {p : TokenParser α} {f : α → TokenParser β} {ts mid : List Token} {a : α}
    {r : Except Fault (β × List Token)} (hp : p ts = .ok (a, mid)) (hf : f a mid = r) : (p >>= f) ts = r := by
  rw [bind_apply, hp]
  exact hf

theorem map_of {p : TokenParser α} (f : α → β) {ts rest : List Token} {a : α} (hp : p ts = .ok (a, rest)) :
    (f <$> p) ts = .ok (f a, rest) := by
  rw [map_apply, hp]

theorem accept_next (t : Token) (ts : List Token) : accept t (t :: ts) = .ok (true, ts) := by
  simp [accept]

theorem accept_other {t : Token} {ts : List Token} (h : ts.head? ≠ some t) : accept t ts = .ok (false, ts) := by
  simp [accept, h]

theorem expect_next (t : Token) (ts : List Token) : expect t (t :: ts) = .ok ((), ts) := by
  simp [expect]

theorem string?_describe (description : Option String) (name : String) (ts : List Token) :
    string? (describe description ++ .name name :: ts) = .ok (description, .name name :: ts) := by
  cases description <;> rfl

/-! Parts that are spelled one after another are read one after another, if what follows a part is
never one of the marks that would continue it. -/

/-- A part is read back from its tokens, unless one of some tokens comes next. -/
def ReadsBack (part : TokenParser α) (spell : α → List Token) (marks : List Token) (a : α) : Prop :=
  ∀ rest, Avoids marks rest → part (spell a ++ rest) = .ok (a, rest)

variable {part : TokenParser α} {spell : α → List Token} {marks : List Token} {as : List α}

theorem length_le_flatMap (h : ∀ a ∈ as, spell a ≠ []) : as.length ≤ (as.flatMap spell).length := by
  induction as with
  | nil => exact Nat.le_refl 0
  | cons a as ih =>
    have hpos := List.length_pos_iff.mpr (h a List.mem_cons_self)
    have htail := ih fun b hb => h b (List.mem_cons_of_mem _ hb)
    rw [List.flatMap_cons, List.length_append, List.length_cons]
    omega

/-- What follows a part is the next part or what follows all of them. -/
theorem avoids_flatMap {rest : List Token} (hstart : ∀ a ∈ as, ∃ t ts, spell a = t :: ts ∧ t ∉ marks)
    (hrest : Avoids marks rest) : Avoids marks (as.flatMap spell ++ rest) := by
  cases as with
  | nil => exact hrest
  | cons a as =>
    obtain ⟨t, ts, hspell, ht⟩ := hstart a List.mem_cons_self
    rw [List.flatMap_cons, hspell, List.cons_append, List.cons_append]
    exact avoids_cons ht _

theorem manyUntilFrom_spelled {close : Token}
    (hpart : ∀ a ∈ as, ReadsBack part spell marks a)
    (hstart : ∀ a ∈ as, ∃ t ts, spell a = t :: ts ∧ t ≠ close ∧ t ∉ marks) (hclose : close ∉ marks)
    (rest bound : List Token) (hbound : as.length ≤ bound.length) :
    manyUntilFrom close part bound (as.flatMap spell ++ close :: rest) = .ok (as, rest) := by
  induction as generalizing bound with
  | nil =>
    unfold manyUntilFrom
    simp
  | cons a as ih =>
    cases bound with
    | nil => exact absurd hbound (Nat.not_succ_le_zero _)
    | cons b bound =>
      have hmore := ih (fun x hx => hpart x (List.mem_cons_of_mem _ hx))
        (fun x hx => hstart x (List.mem_cons_of_mem _ hx)) bound (Nat.le_of_succ_le_succ hbound)
      have hnext : Avoids marks (as.flatMap spell ++ close :: rest) := by
        refine avoids_flatMap (fun x hx => ?_) (avoids_cons hclose _)
        obtain ⟨t, ts, hspell, -, ht⟩ := hstart x (List.mem_cons_of_mem _ hx)
        exact ⟨t, ts, hspell, ht⟩
      have hread := hpart a List.mem_cons_self _ hnext
      obtain ⟨t, ts, hspell, hne, -⟩ := hstart a List.mem_cons_self
      have hhead : (spell a ++ (as.flatMap spell ++ close :: rest)).head? ≠ some close := by
        rw [hspell, List.cons_append, List.head?_cons]
        exact fun he => hne (Option.some.inj he)
      rw [List.flatMap_cons, List.append_assoc]
      unfold manyUntilFrom
      simp only [if_neg hhead, hread, hmore]

theorem manyUntil_spelled {close : Token}
    (hpart : ∀ a ∈ as, ReadsBack part spell marks a)
    (hstart : ∀ a ∈ as, ∃ t ts, spell a = t :: ts ∧ t ≠ close ∧ t ∉ marks) (hclose : close ∉ marks)
    (rest : List Token) : manyUntil close part (as.flatMap spell ++ close :: rest) = .ok (as, rest) := by
  refine manyUntilFrom_spelled hpart hstart hclose rest _ ?_
  have hlen : as.length ≤ (as.flatMap spell).length := by
    refine length_le_flatMap fun a ha => ?_
    obtain ⟨t, ts, hspell, -⟩ := hstart a ha
    exact hspell ▸ List.cons_ne_nil t ts
  rw [List.length_append]
  omega

theorem block_enclosed {openToken close : Token}
    (hpart : ∀ a ∈ as, ReadsBack part spell marks a)
    (hstart : ∀ a ∈ as, ∃ t ts, spell a = t :: ts ∧ t ≠ close ∧ t ∉ marks) (hclose : close ∉ marks)
    {rest : List Token} (hrest : Avoids [openToken] rest) :
    block openToken close part (enclosed openToken close spell as ++ rest) = .ok (as, rest) := by
  cases as with
  | nil => exact bind_of (accept_other (hrest _ List.mem_cons_self)) rfl
  | cons a as =>
    have hcut : enclosed openToken close spell (a :: as) ++ rest =
        openToken :: ((a :: as).flatMap spell ++ close :: rest) := by
      simp [enclosed]
    rw [hcut]
    exact bind_of (accept_next _ _) (manyUntil_spelled hpart hstart hclose rest)

theorem manyAfterFrom_spelled {mark : Token}
    (hpart : ∀ a ∈ as, ReadsBack part spell marks a)
    (hmark : mark ∉ marks) {rest : List Token} (hrest : Avoids (mark :: marks) rest) (bound : List Token)
    (hbound : as.length ≤ bound.length) :
    manyAfterFrom mark part bound ((as.flatMap fun a => mark :: spell a) ++ rest) = .ok (as, rest) := by
  induction as generalizing bound with
  | nil =>
    cases bound with
    | nil => rfl
    | cons b bound =>
      have hhead := hrest mark List.mem_cons_self
      simp only [List.flatMap_nil, List.nil_append, manyAfterFrom, if_neg hhead]
  | cons a as ih =>
    cases bound with
    | nil => exact absurd hbound (Nat.not_succ_le_zero _)
    | cons b bound =>
      have hmore := ih (fun x hx => hpart x (List.mem_cons_of_mem _ hx)) bound (Nat.le_of_succ_le_succ hbound)
      have hnext : Avoids marks ((as.flatMap fun a => mark :: spell a) ++ rest) :=
        avoids_flatMap (fun x _ => ⟨mark, spell x, rfl, hmark⟩) fun t ht => hrest t (List.mem_cons_of_mem _ ht)
      have hread := hpart a List.mem_cons_self _ hnext
      rw [List.flatMap_cons, List.append_assoc, List.cons_append]
      simp only [manyAfterFrom, List.head?_cons, if_true, List.tail_cons, hread, hmore]

theorem manyAfter_spelled {mark : Token}
    (hpart : ∀ a ∈ as, ReadsBack part spell marks a)
    (hmark : mark ∉ marks) {rest : List Token} (hrest : Avoids (mark :: marks) rest) :
    manyAfter mark part ((as.flatMap fun a => mark :: spell a) ++ rest) = .ok (as, rest) := by
  refine manyAfterFrom_spelled hpart hmark hrest _ ?_
  have hlen : as.length ≤ (as.flatMap fun a => mark :: spell a).length :=
    length_le_flatMap fun a _ => List.cons_ne_nil _ _
  rw [List.length_append]
  omega

theorem manyToEndFrom_spelled
    (hpart : ∀ a ∈ as, ReadsBack part spell marks a)
    (hstart : ∀ a ∈ as, ∃ t ts, spell a = t :: ts ∧ t ∉ marks) (bound : List Token)
    (hbound : as.length ≤ bound.length) : manyToEndFrom part bound (as.flatMap spell) = .ok as := by
  induction as generalizing bound with
  | nil => cases bound <;> rfl
  | cons a as ih =>
    cases bound with
    | nil => exact absurd hbound (Nat.not_succ_le_zero _)
    | cons b bound =>
      have hlater : ∀ x ∈ as, ∃ t ts, spell x = t :: ts ∧ t ∉ marks := fun x hx =>
        hstart x (List.mem_cons_of_mem _ hx)
      have hmore := ih (fun x hx => hpart x (List.mem_cons_of_mem _ hx)) hlater bound
        (Nat.le_of_succ_le_succ hbound)
      have hnext : Avoids marks (as.flatMap spell) := by
        have hend : Avoids marks (as.flatMap spell ++ []) := avoids_flatMap hlater fun _ _ he => nomatch he
        rwa [List.append_nil] at hend
      have hread := hpart a List.mem_cons_self _ hnext
      obtain ⟨t, ts, hspell, -⟩ := hstart a List.mem_cons_self
      rw [List.flatMap_cons]
      rw [hspell, List.cons_append] at hread ⊢
      simp only [manyToEndFrom, hread, hmore]

theorem separated_joined {mark : Token} (hmark : ∀ name, mark ≠ .name name) {names : List String}
    (hne : names ≠ []) {rest : List Token} (hrest : Avoids [mark] rest) :
    separated mark name (joined mark names ++ rest) = .ok (names, rest) := by
  cases names with
  | nil => exact absurd rfl hne
  | cons first others =>
    have hother : (joined mark (first :: others) ++ rest).head? ≠ some mark := fun he =>
      hmark first (Option.some.inj he).symm
    have hname : ∀ other ∈ others, ∀ rest, Avoids [] rest → name ([.name other] ++ rest) = .ok (other, rest) :=
      fun _ _ _ _ => rfl
    have hmany := manyAfter_spelled hname List.not_mem_nil hrest
    refine bind_of (accept_other hother) ?_
    refine bind_of rfl ?_
    exact bind_of hmany rfl

end TokenParser

/-! ## Types and values read back -/

namespace Grammar

open TokenParser

theorem nullMark_absent (type : TypeExpr) {rest : List Token} (hrest : Avoids [.bang] rest) :
    nullMark type rest = .ok (type, rest) :=
  bind_of (accept_other (hrest _ List.mem_cons_self)) rfl

theorem nullMark_present (type : TypeExpr) (rest : List Token) :
    nullMark type (.bang :: rest) = .ok (.nonNull type, rest) :=
  bind_of (accept_next _ _) rfl

theorem typeExpr_layer (room : Nat) : ∃ item, typeExpr room = typeLayer item := by
  cases room with
  | zero => exact ⟨none, rfl⟩
  | succ room => exact ⟨some (typeExpr room), rfl⟩

theorem typeExpr_named (room : Nat) (name : String) (rest : List Token) :
    typeExpr room (.name name :: rest) = nullMark (.named name) rest := by
  obtain ⟨item, hlayer⟩ := typeExpr_layer room
  rw [hlayer]
  refine bind_of (accept_other (by simp)) ?_
  exact bind_of (map_of _ rfl) rfl

theorem typeExpr_list {room : Nat} {item : TypeExpr} {ts rest : List Token}
    (hitem : typeExpr room ts = .ok (item, .bracketClose :: rest)) :
    typeExpr (room + 1) (.bracketOpen :: ts) = nullMark (.list item) rest := by
  refine bind_of (accept_next _ _) ?_
  refine bind_of hitem ?_
  exact bind_of (expect_next _ _) rfl

/-- A type is read back; one without a sign at its end is read up to where such a sign may stand. -/
theorem typeExpr_tokens {room : Nat} {type : TypeExpr} (h : type.WellFormed room) :
    ((∀ inner, type ≠ .nonNull inner) → ∀ rest, typeExpr room (type.tokens ++ rest) = nullMark type rest) ∧
      ∀ rest, Avoids [.bang] rest → typeExpr room (type.tokens ++ rest) = .ok (type, rest) := by
  induction h with
  | @named room name _ =>
    have hread : ∀ rest, typeExpr room ((TypeExpr.named name).tokens ++ rest) = nullMark (.named name) rest :=
      typeExpr_named room name
    exact ⟨fun _ => hread, fun rest hrest => (hread rest).trans (nullMark_absent _ hrest)⟩
  | @list room item _ ih =>
    have hread : ∀ rest, typeExpr (room + 1) ((TypeExpr.list item).tokens ++ rest) = nullMark (.list item) rest := by
      intro rest
      have hitem := ih.2 (.bracketClose :: rest) (avoids_cons (by simp) _)
      have hcut : (TypeExpr.list item).tokens ++ rest =
          .bracketOpen :: (item.tokens ++ .bracketClose :: rest) := by
        simp [TypeExpr.tokens]
      rw [hcut]
      exact typeExpr_list hitem
    exact ⟨fun _ => hread, fun rest hrest => (hread rest).trans (nullMark_absent _ hrest)⟩
  | @nonNull room inner _ hplain ih =>
    -- the inner type has no sign of its own, so the one that follows it is taken for this layer
    refine ⟨fun h => absurd rfl (h inner), fun rest _ => ?_⟩
    have hread := ih.1 hplain (.bang :: rest)
    rw [TypeExpr.tokens, List.append_assoc, List.singleton_append, hread, nullMark_present]

theorem valueLayer_token {item : Option (TokenParser Value)} {t : Token} {v : Value} (h : tokenValue? t = some v)
    (rest : List Token) : valueLayer item (t :: rest) = .ok (v, rest) := by
  have hd : (t :: rest).head? ≠ some .dollar := by
    rintro ⟨⟩
    cases h
  have hb : (t :: rest).head? ≠ some .bracketOpen := by
    rintro ⟨⟩
    cases h
  have ho : (t :: rest).head? ≠ some .braceOpen := by
    rintro ⟨⟩
    cases h
  refine bind_of (accept_other hd) ?_
  refine bind_of (accept_other hb) ?_
  refine bind_of (accept_other ho) ?_
  refine bind_of rfl ?_
  simp only [List.head?_cons, Option.bind_some, h]
  rfl

theorem value_layer (room : Nat) : ∃ item, value room = valueLayer item := by
  cases room with
  | zero => exact ⟨none, rfl⟩
  | succ room => exact ⟨some (value room), rfl⟩

theorem value_token (room : Nat) {t : Token} {v : Value} (h : tokenValue? t = some v) (rest : List Token) :
    value room (t :: rest) = .ok (v, rest) := by
  obtain ⟨item, hlayer⟩ := value_layer room
  rw [hlayer]
  exact valueLayer_token h rest

theorem Value.tokens_start (v : Value) :
    ∃ t ts, v.tokens = t :: ts ∧ t ≠ .bracketClose ∧ t ∉ ([] : List Token) := by
  cases v <;> exact ⟨_, _, rfl, by simp, List.not_mem_nil⟩

theorem argumentTokens_start (argument : String × Value) {close : Token} (h : ∀ name, close ≠ .name name) :
    ∃ t ts, argumentTokens argument = t :: ts ∧ t ≠ close ∧ t ∉ ([] : List Token) :=
  ⟨_, _, rfl, (h argument.1).symm, List.not_mem_nil⟩

theorem entry_argumentTokens {room : Nat} {argument : String × Value} {rest : List Token}
    (h : value room (argument.2.tokens ++ rest) = .ok (argument.2, rest)) :
    entry (value room) (argumentTokens argument ++ rest) = .ok (argument, rest) := by
  refine bind_of rfl ?_
  refine bind_of (expect_next _ _) ?_
  exact bind_of h rfl

/-- A value is read back, whatever follows it. -/
theorem value_tokens {room : Nat} {v : Value} (h : v.WellFormed room) (rest : List Token) :
    value room (v.tokens ++ rest) = .ok (v, rest) := by
  induction h generalizing rest with
  | @var room name _ =>
    obtain ⟨item, hlayer⟩ := value_layer room
    rw [hlayer]
    rfl
  | int _ => exact value_token _ rfl rest
  | float _ => exact value_token _ rfl rest
  | string => exact value_token _ rfl rest
  | @boolean room value => cases value <;> exact value_token _ rfl rest
  | null => exact value_token _ rfl rest
  | @enum room name _ hname =>
    refine value_token _ ?_ rest
    simp only [List.mem_cons, List.not_mem_nil, or_false, not_or] at hname
    simp [tokenValue?, namedValue, hname]
  | @list room items _ ih =>
    have hcut : (Value.list items).tokens ++ rest =
        .bracketOpen :: (items.flatMap Value.tokens ++ .bracketClose :: rest) := by
      simp [Value.tokens, itemTokens_eq]
    have hmany := manyUntil_spelled (fun item hitem rest _ => ih item hitem rest)
      (fun item _ => Value.tokens_start item) List.not_mem_nil rest
    rw [hcut]
    refine bind_of (accept_other (by simp)) ?_
    refine bind_of (accept_next _ _) ?_
    exact map_of _ hmany
  | @object room entries _ _ ih =>
    have hcut : (Value.object entries).tokens ++ rest =
        .braceOpen :: (entries.flatMap argumentTokens ++ .braceClose :: rest) := by
      simp [Value.tokens, entryTokens_eq]
    have hmany : manyUntil .braceClose (entry (value room)) (entries.flatMap argumentTokens ++ .braceClose :: rest) =
        .ok (entries, rest) :=
      manyUntil_spelled (fun entry hentry rest _ => entry_argumentTokens (ih entry hentry rest))
        (fun entry _ => argumentTokens_start entry (by simp)) List.not_mem_nil rest
    rw [hcut]
    refine bind_of (accept_other (by simp)) ?_
    refine bind_of (accept_other (by simp)) ?_
    refine bind_of (accept_next _ _) ?_
    exact map_of _ hmany

/-! ## Directives, fields and arguments read back -/

/-- The tokens that would continue an argument, field or enum value. -/
def partMarks : List Token := [.bang, .equals, .atSign, .parenOpen]

theorem directive_tokens {room : Nat} {d : Directive} (h : d.WellFormed room) :
    ReadsBack (directive room) Directive.tokens [.parenOpen] d := by
  intro rest hrest
  have hblock : block .parenOpen .parenClose (entry (value room))
      (enclosed .parenOpen .parenClose argumentTokens d.arguments ++ rest) = .ok (d.arguments, rest) :=
    block_enclosed (fun a ha rest _ => entry_argumentTokens (value_tokens (h.arguments a ha).2 rest))
      (fun a _ => argumentTokens_start a (by simp)) List.not_mem_nil hrest
  refine bind_of rfl ?_
  exact bind_of hblock rfl

theorem directives_tokens {room : Nat} {ds : List Directive} (h : ∀ d ∈ ds, d.WellFormed room)
    {rest : List Token} (hrest : Avoids [.atSign, .parenOpen] rest) :
    directives room (directivesTokens ds ++ rest) = .ok (ds, rest) :=
  manyAfter_spelled (fun d hd => directive_tokens (h d hd)) (by simp) hrest

theorem defaultValue_tokens {room : Nat} {default : Option Value}
    (h : ∀ v, default = some v → v.WellFormed room) {rest : List Token} (hrest : Avoids [.equals] rest) :
    defaultValue room (defaultTokens default ++ rest) = .ok (default, rest) := by
  cases default with
  | none => exact bind_of (accept_other (hrest _ List.mem_cons_self)) rfl
  | some v =>
    refine bind_of (accept_next _ _) ?_
    exact map_of _ (value_tokens (h v rfl) rest)

/-- Uses of directives start with their sign. -/
theorem directivesTokens_avoids {marks : List Token} (h : Token.atSign ∉ marks) (ds : List Directive)
    {rest : List Token} (hrest : Avoids marks rest) : Avoids marks (directivesTokens ds ++ rest) :=
  avoids_flatMap (fun d _ => ⟨.atSign, d.tokens, rfl, h⟩) hrest

theorem enclosed_avoids {α : Type} {openToken close : Token} {spell : α → List Token} {marks : List Token}
    (h : openToken ∉ marks) (as : List α) {rest : List Token} (hrest : Avoids marks rest) :
    Avoids marks (enclosed openToken close spell as ++ rest) := by
  cases as with
  | nil => exact hrest
  | cons a as => exact avoids_cons h _

theorem announced_avoids {announce mark : Token} {marks : List Token} (h : announce ∉ marks) (names : List String)
    {rest : List Token} (hrest : Avoids marks rest) : Avoids marks (announced announce mark names ++ rest) := by
  cases names with
  | nil => exact hrest
  | cons name names => exact avoids_cons h _

theorem defaultTokens_avoids {marks : List Token} (h : Token.equals ∉ marks) (default : Option Value)
    {rest : List Token} (hrest : Avoids marks rest) : Avoids marks (defaultTokens default ++ rest) := by
  cases default with
  | none => exact hrest
  | some value => exact avoids_cons h _

theorem inputValue_tokens {room : Nat} {v : InputValue} (h : v.WellFormed room) :
    ReadsBack (inputValue room) InputValue.tokens partMarks v := by
  intro rest hrest
  have hcut : v.tokens ++ rest = describe v.description ++ .name v.name :: .colon :: (v.type.tokens ++
      (defaultTokens v.default ++ (directivesTokens v.directives ++ rest))) := by
    simp [InputValue.tokens]
  have hdirectives : Avoids [.atSign, .parenOpen] rest := hrest.mono (by simp [partMarks])
  have hdefault : Avoids [.equals] (directivesTokens v.directives ++ rest) :=
    directivesTokens_avoids (by simp) _ (hrest.mono (by simp [partMarks]))
  have htype : Avoids [.bang] (defaultTokens v.default ++ (directivesTokens v.directives ++ rest)) :=
    defaultTokens_avoids (by simp) _ (directivesTokens_avoids (by simp) _ (hrest.mono (by simp [partMarks])))
  rw [hcut]
  refine bind_of (string?_describe _ _ _) ?_
  refine bind_of rfl ?_
  refine bind_of (expect_next _ _) ?_
  refine bind_of ((typeExpr_tokens h.type).2 _ htype) ?_
  refine bind_of (defaultValue_tokens h.default hdefault) ?_
  exact bind_of (directives_tokens h.directives hdirectives) rfl

/-- A part starts with its description or its name. -/
theorem described_start (description : Option String) (name : String) (ts : List Token) {close : Token}
    (hname : ∀ text, close ≠ .name text) (hstring : ∀ text, close ≠ .string text) :
    ∃ t rest, describe description ++ .name name :: ts = t :: rest ∧ t ≠ close ∧ t ∉ partMarks := by
  cases description with
  | none => exact ⟨_, _, rfl, (hname name).symm, by simp [partMarks]⟩
  | some text => exact ⟨_, _, rfl, (hstring text).symm, by simp [partMarks]⟩

theorem inputValues_tokens {room : Nat} {vs : List InputValue} (h : ∀ v ∈ vs, v.WellFormed room)
    {openToken close : Token} (hclose : close = .parenClose ∨ close = .braceClose) {rest : List Token}
    (hrest : Avoids [openToken] rest) :
    inputValues room openToken close (enclosed openToken close InputValue.tokens vs ++ rest) = .ok (vs, rest) := by
  refine block_enclosed (fun v hv => inputValue_tokens (h v hv)) (fun v _ => ?_) ?_ hrest
  · refine described_start _ _ _ ?_ ?_ <;> rcases hclose with rfl | rfl <;> simp
  · rcases hclose with rfl | rfl <;> simp [partMarks]

theorem field_tokens {room : Nat} {f : Field} (h : f.WellFormed room) :
    ReadsBack (field room) Field.tokens partMarks f := by
  intro rest hrest
  have hcut : f.tokens ++ rest = describe f.description ++ .name f.name ::
      (enclosed .parenOpen .parenClose InputValue.tokens f.arguments ++ .colon ::
        (f.type.tokens ++ (directivesTokens f.directives ++ rest))) := by
    simp [Field.tokens]
  have hdirectives : Avoids [.atSign, .parenOpen] rest := hrest.mono (by simp [partMarks])
  have htype : Avoids [.bang] (directivesTokens f.directives ++ rest) :=
    directivesTokens_avoids (by simp) _ (hrest.mono (by simp [partMarks]))
  rw [hcut]
  refine bind_of (string?_describe _ _ _) ?_
  refine bind_of rfl ?_
  refine bind_of (inputValues_tokens h.arguments (Or.inl rfl) (avoids_cons (by simp) _)) ?_
  refine bind_of (expect_next _ _) ?_
  refine bind_of ((typeExpr_tokens h.type).2 _ htype) ?_
  exact bind_of (directives_tokens h.directives hdirectives) rfl

theorem enumValue_tokens {room : Nat} {v : EnumValue} (h : v.WellFormed room) :
    ReadsBack (enumValue room) EnumValue.tokens partMarks v := by
  intro rest hrest
  have hcut : v.tokens ++ rest = describe v.description ++ .name v.name ::
      (directivesTokens v.directives ++ rest) := by
    simp [EnumValue.tokens]
  have hdirectives : Avoids [.atSign, .parenOpen] rest := hrest.mono (by simp [partMarks])
  rw [hcut]
  refine bind_of (string?_describe _ _ _) ?_
  refine bind_of rfl ?_
  exact bind_of (directives_tokens h.directives hdirectives) rfl

/-! ## Definitions read back -/

/-- The tokens that would continue a definition. -/
def definitionMarks : List Token :=
  [.atSign, .parenOpen, .braceOpen, .equals, .pipe, .amp, .name "implements"]

theorem names_announced {announce mark : Token} (hmark : ∀ name, mark ≠ .name name) (names : List String)
    {rest : List Token} (hrest : Avoids [announce, mark] rest) :
    (do if ← accept announce then separated mark TokenParser.name else return [])
      (announced announce mark names ++ rest) = .ok (names, rest) := by
  cases names with
  | nil => exact bind_of (accept_other (hrest _ List.mem_cons_self)) rfl
  | cons name names =>
    refine bind_of (accept_next _ _) ?_
    exact separated_joined hmark (List.cons_ne_nil _ _) (hrest.mono (by simp))

theorem entry_operationTokens (operation : String × String) (rest : List Token) :
    entry TokenParser.name (operationTokens operation ++ rest) = .ok (operation, rest) := by
  refine bind_of rfl ?_
  refine bind_of (expect_next _ _) ?_
  exact bind_of rfl rfl

theorem schemaRoot_tokens {room : Nat} {d : SchemaRoot} (h : d.WellFormed room) {rest : List Token}
    (hrest : Avoids definitionMarks rest) :
    schemaRoot room d.description ((Definition.schema d).contents ++ rest) = .ok (d, rest) := by
  have hblock : block .braceOpen .braceClose (entry TokenParser.name)
      (enclosed .braceOpen .braceClose operationTokens d.operations ++ rest) = .ok (d.operations, rest) :=
    block_enclosed (fun operation _ rest _ => entry_operationTokens operation rest)
      (fun operation _ => ⟨_, _, rfl, by simp, List.not_mem_nil⟩) List.not_mem_nil
      (hrest.mono (by simp [definitionMarks]))
  have hdirectives : Avoids [.atSign, .parenOpen]
      (enclosed .braceOpen .braceClose operationTokens d.operations ++ rest) :=
    enclosed_avoids (by simp) _ (hrest.mono (by simp [definitionMarks]))
  rw [Definition.contents, List.append_assoc]
  refine bind_of (directives_tokens h.directives hdirectives) ?_
  exact bind_of hblock rfl

theorem scalarType_tokens {room : Nat} {d : ScalarType} (h : d.WellFormed room) {rest : List Token}
    (hrest : Avoids definitionMarks rest) :
    scalarType room d.description ((Definition.scalar d).contents ++ rest) = .ok (d, rest) := by
  refine bind_of rfl ?_
  exact bind_of (directives_tokens h.directives (hrest.mono (by simp [definitionMarks]))) rfl

theorem fieldsType_tokens {room : Nat} {d : FieldsType} (h : d.WellFormed room) {rest : List Token}
    (hrest : Avoids definitionMarks rest) :
    fieldsType room d.description (d.tokens ++ rest) = .ok (d, rest) := by
  have hcut : d.tokens ++ rest = .name d.name :: (announced (.name "implements") .amp d.interfaces ++
      (directivesTokens d.directives ++ (enclosed .braceOpen .braceClose Field.tokens d.fields ++ rest))) := by
    simp [FieldsType.tokens]
  have hblock : block .braceOpen .braceClose (field room)
      (enclosed .braceOpen .braceClose Field.tokens d.fields ++ rest) = .ok (d.fields, rest) :=
    block_enclosed (fun f hf => field_tokens (h.fields f hf))
      (fun f _ => described_start _ _ _ (by simp) (by simp)) (by simp [partMarks])
      (hrest.mono (by simp [definitionMarks]))
  have hdirectives : Avoids [.atSign, .parenOpen]
      (enclosed .braceOpen .braceClose Field.tokens d.fields ++ rest) :=
    enclosed_avoids (by simp) _ (hrest.mono (by simp [definitionMarks]))
  have hinterfaces : Avoids [.name "implements", .amp]
      (directivesTokens d.directives ++ (enclosed .braceOpen .braceClose Field.tokens d.fields ++ rest)) :=
    directivesTokens_avoids (by simp) _ (enclosed_avoids (by simp) _ (hrest.mono (by simp [definitionMarks])))
  rw [hcut]
  refine bind_of rfl ?_
  refine bind_of (names_announced (by simp) d.interfaces hinterfaces) ?_
  refine bind_of (directives_tokens h.directives hdirectives) ?_
  exact bind_of hblock rfl

theorem unionType_tokens {room : Nat} {d : UnionType} (h : d.WellFormed room) {rest : List Token}
    (hrest : Avoids definitionMarks rest) :
    unionType room d.description ((Definition.union d).contents ++ rest) = .ok (d, rest) := by
  have hcut : (Definition.union d).contents ++ rest = .name d.name :: (directivesTokens d.directives ++
      (announced .equals .pipe d.members ++ rest)) := by
    simp [Definition.contents]
  have hdirectives : Avoids [.atSign, .parenOpen] (announced .equals .pipe d.members ++ rest) :=
    announced_avoids (by simp) _ (hrest.mono (by simp [definitionMarks]))
  rw [hcut]
  refine bind_of rfl ?_
  refine bind_of (directives_tokens h.directives hdirectives) ?_
  exact bind_of (names_announced (by simp) d.members (hrest.mono (by simp [definitionMarks]))) rfl

theorem enumType_tokens {room : Nat} {d : EnumType} (h : d.WellFormed room) {rest : List Token}
    (hrest : Avoids definitionMarks rest) :
    enumType room d.description ((Definition.enum d).contents ++ rest) = .ok (d, rest) := by
  have hcut : (Definition.enum d).contents ++ rest = .name d.name :: (directivesTokens d.directives ++
      (enclosed .braceOpen .braceClose EnumValue.tokens d.values ++ rest)) := by
    simp [Definition.contents]
  have hblock : block .braceOpen .braceClose (enumValue room)
      (enclosed .braceOpen .braceClose EnumValue.tokens d.values ++ rest) = .ok (d.values, rest) :=
    block_enclosed (fun v hv => enumValue_tokens (h.values v hv))
      (fun v _ => described_start _ _ _ (by simp) (by simp)) (by simp [partMarks])
      (hrest.mono (by simp [definitionMarks]))
  have hdirectives : Avoids [.atSign, .parenOpen]
      (enclosed .braceOpen .braceClose EnumValue.tokens d.values ++ rest) :=
    enclosed_avoids (by simp) _ (hrest.mono (by simp [definitionMarks]))
  rw [hcut]
  refine bind_of rfl ?_
  refine bind_of (directives_tokens h.directives hdirectives) ?_
  exact bind_of hblock rfl

theorem inputType_tokens {room : Nat} {d : InputType} (h : d.WellFormed room) {rest : List Token}
    (hrest : Avoids definitionMarks rest) :
    inputType room d.description ((Definition.input d).contents ++ rest) = .ok (d, rest) := by
  have hcut : (Definition.input d).contents ++ rest = .name d.name :: (directivesTokens d.directives ++
      (enclosed .braceOpen .braceClose InputValue.tokens d.fields ++ rest)) := by
    simp [Definition.contents]
  have hdirectives : Avoids [.atSign, .parenOpen]
      (enclosed .braceOpen .braceClose InputValue.tokens d.fields ++ rest) :=
    enclosed_avoids (by simp) _ (hrest.mono (by simp [definitionMarks]))
  rw [hcut]
  refine bind_of rfl ?_
  refine bind_of (directives_tokens h.directives hdirectives) ?_
  exact bind_of (inputValues_tokens h.fields (Or.inr rfl) (hrest.mono (by simp [definitionMarks]))) rfl

theorem accept_repeatable (repeatable : Bool) (rest : List Token) :
    accept (.name "repeatable") ((if repeatable then [.name "repeatable"] else []) ++ .name "on" :: rest) =
      .ok (repeatable, .name "on" :: rest) := by
  cases repeatable <;> rfl

theorem directiveType_tokens {room : Nat} {d : DirectiveType} (h : d.WellFormed room) {rest : List Token}
    (hrest : Avoids definitionMarks rest) :
    directiveType room d.description ((Definition.directive d).contents ++ rest) = .ok (d, rest) := by
  have hcut : (Definition.directive d).contents ++ rest = .atSign :: .name d.name ::
      (enclosed .parenOpen .parenClose InputValue.tokens d.arguments ++
        ((if d.repeatable then [.name "repeatable"] else []) ++ .name "on" :: (joined .pipe d.locations ++ rest))) := by
    simp [Definition.contents]
  have harguments : Avoids [.parenOpen]
      ((if d.repeatable then [.name "repeatable"] else []) ++ .name "on" :: (joined .pipe d.locations ++ rest)) := by
    cases d.repeatable <;> exact avoids_cons (by simp) _
  rw [hcut]
  refine bind_of (expect_next _ _) ?_
  refine bind_of rfl ?_
  refine bind_of (inputValues_tokens h.arguments (Or.inl rfl) harguments) ?_
  refine bind_of (accept_repeatable _ _) ?_
  refine bind_of (expect_next _ _) ?_
  exact bind_of (separated_joined (by simp) h.located (hrest.mono (by simp [definitionMarks]))) rfl

/-- What follows the keyword of a plain definition is read back. -/
theorem typeSystemDefinition_tokens {room : Nat} {d : Definition} (h : d.WellFormed room)
    (hplain : d.isExtension = false) {rest : List Token} (hrest : Avoids definitionMarks rest) :
    typeSystemDefinition room d.description? (.name d.keyword :: (d.contents ++ rest)) = .ok (d, rest) := by
  cases d with
  | schema d => exact map_of _ (schemaRoot_tokens h hrest)
  | scalar d => exact map_of _ (scalarType_tokens h hrest)
  | object d => exact map_of _ (fieldsType_tokens h hrest)
  | interface d => exact map_of _ (fieldsType_tokens h hrest)
  | union d => exact map_of _ (unionType_tokens h hrest)
  | enum d => exact map_of _ (enumType_tokens h hrest)
  | input d => exact map_of _ (inputType_tokens h hrest)
  | directive d => exact map_of _ (directiveType_tokens h hrest)
  | extension d => cases hplain

/-- A keyword begins no executable definition or extension and continues no definition. -/
theorem keyword_apart {keyword : String} (h : keyword ∈ Definition.keywords) :
    isExecutable (.name keyword) = false ∧ keyword ≠ "extend" ∧ keyword ≠ "implements" := by
  have hall : ∀ k ∈ Definition.keywords, isExecutable (.name k) = false ∧ k ≠ "extend" ∧ k ≠ "implements" := by decide
  exact hall keyword h

theorem definition_plain {room : Nat} {d : Definition} (h : d.WellFormed room) (hplain : d.isExtension = false)
    {rest : List Token} (hrest : Avoids definitionMarks rest) :
    definition room (d.tokens ++ rest) = .ok (d, rest) := by
  have hcut : d.tokens ++ rest = describe d.description? ++ .name d.keyword :: (d.contents ++ rest) := by
    rw [Definition.tokens_plain hplain, List.append_assoc, List.cons_append]
  obtain ⟨hrun, hextend, -⟩ := keyword_apart (Definition.keyword_mem hplain)
  rw [hcut]
  refine bind_of (string?_describe _ _ _) ?_
  refine bind_of rfl ?_
  simp only [List.head?_cons, hrun, Bool.false_eq_true, if_false, Token.name.injEq, hextend, false_and, nameOf?,
    Option.isSome_some, if_true]
  exact typeSystemDefinition_tokens h hplain hrest

theorem definition_tokens {room : Nat} {d : Definition} (h : d.WellFormed room) :
    ReadsBack (definition room) Definition.tokens definitionMarks d := by
  intro rest hrest
  cases hext : d.isExtension with
  | false => exact definition_plain h hext hrest
  | true =>
    cases d with
    | extension of =>
      obtain ⟨hof, hplain, hdescription⟩ := h
      have hread := typeSystemDefinition_tokens hof hplain hrest
      have hcut : (Definition.extension of).tokens ++ rest =
          .name "extend" :: .name of.keyword :: (of.contents ++ rest) := by
        rw [Definition.tokens, Definition.tokens_plain hplain, hdescription]
        rfl
      rw [hdescription] at hread
      rw [hcut]
      refine bind_of rfl ?_
      refine bind_of rfl ?_
      refine bind_of rfl ?_
      exact map_of _ hread
    | _ => cases hext

theorem definition_start (d : Definition) : ∃ t ts, d.tokens = t :: ts ∧ t ∉ definitionMarks := by
  cases hext : d.isExtension with
  | false =>
    obtain ⟨-, -, himplements⟩ := keyword_apart (Definition.keyword_mem hext)
    rw [Definition.tokens_plain hext]
    cases d.description? with
    | none => exact ⟨_, _, rfl, by simp [definitionMarks, himplements]⟩
    | some text => exact ⟨_, _, rfl, by simp [definitionMarks]⟩
  | true =>
    cases d with
    | extension of => exact ⟨_, _, rfl, by simp [definitionMarks]⟩
    | _ => cases hext

/-- The tokens of well-formed definitions are read back. -/
theorem document_tokens {room : Nat} {doc : Document} (h : ∀ d ∈ doc.definitions, d.WellFormed room) :
    document room doc.tokens = .ok doc := by
  have hmany : manyToEnd (definition room) doc.tokens = .ok doc.definitions := by
    refine manyToEndFrom_spelled (fun d hd => definition_tokens (h d hd))
      (fun d _ => definition_start d) _ (length_le_flatMap fun d _ => ?_)
    obtain ⟨t, ts, htokens, -⟩ := definition_start d
    exact htokens ▸ List.cons_ne_nil t ts
  rw [document, hmany]

end Grammar

/-! ## Texts -/

/-- A row of tokens in their spellings is tokenized as that row. -/
theorem tokenize_rowText {row : List (Token × List Char)} (h : ∀ p ∈ row, p.1.Spells p.2) :
    ∃ lexemes, tokenize (Token.rowText row) = .ok lexemes ∧ lexemes.map Lexeme.token = row.map Prod.fst := by
  obtain ⟨lexemes, hscan, hmap⟩ := Lexeme.scanFrom_row h (Or.inl rfl) [] 0
  refine ⟨lexemes, ?_, hmap⟩
  have hscan' : Lexeme.scan (Token.rowText row) = .ok lexemes := hscan
  rw [tokenize, hscan']
  rfl

/-- Canonical tokens are all that their spelled row is tokenized as. -/
theorem tokenize_spellAll {ts : List Token} (h : ∀ t ∈ ts, t.Canonical) :
    ∃ lexemes, tokenize (Token.spellAll ts) = .ok lexemes ∧ lexemes.map Lexeme.token = ts := by
  have hrow : ∀ p ∈ ts.map fun t => (t, t.spelling), p.1.Spells p.2 :=
    List.forall_mem_map.mpr fun t ht => (h t ht).spells
  obtain ⟨lexemes, htokens, hmap⟩ := tokenize_rowText hrow
  exact ⟨lexemes, Token.spellAll_eq ts ▸ htokens, by simpa [Function.comp_def] using hmap⟩

/-- A byte order mark begins no token, so a text that can be tokenized starts with none. -/
theorem dropByteOrderMark_of_tokenize {text : List Char} {lexemes : List Lexeme} (h : tokenize text = .ok lexemes) :
    Text.dropByteOrderMark text = text := by
  cases text with
  | nil => rfl
  | cons c cs =>
    have hc : c ≠ '\ufeff' := by
      rintro rfl
      rw [tokenize, Lexeme.scan, Lexeme.scanFrom] at h
      cases h
    rw [Text.dropByteOrderMark, if_neg hc]

/-- A text that can be tokenized spells what its tokens make up. -/
theorem Document.ofChars_of_tokenize {text : List Char} {lexemes : List Lexeme} (h : tokenize text = .ok lexemes) :
    Document.ofChars text =
      (Grammar.document maxNesting (lexemes.map Lexeme.token)).mapError (ParseError.ofFault text lexemes) := by
  simp only [Document.ofChars, dropByteOrderMark_of_tokenize h, h]

theorem Document.parse_print {doc : Document} (h : doc.WellFormed) : Document.parse doc.print = .ok doc := by
  obtain ⟨lexemes, htokens, hmap⟩ := tokenize_spellAll h.canonical
  have hread := Grammar.document_tokens h
  rw [Document.parse, Document.print, String.toList_ofList, Document.ofChars_of_tokenize htokens, hmap, hread]
  rfl

/-- Parsing and well-formedness fit each other: only well-formed documents are parsed, and each of them is
parsed from its canonical text. -/
theorem Document.parse_fits_print :
    (∀ text doc, Document.parse text = .ok doc → doc.WellFormed) ∧
      ∀ doc, doc.WellFormed → Document.parse doc.print = .ok doc :=
  ⟨fun _ _ h => wellFormed_of_parse h, fun _ h => parse_print h⟩

/-- A description with a quote and a line end, a value named like a keyword, and nested values. -/
theorem Document.parse_fits_print_extended_enum :
    let use : Directive := { name := "tag", arguments := [("order", .list [.int "-1", .object [("on", .null)]])] }
    let value : EnumValue := { name := "implements", description := some "a \"b\"\n", directives := [use] }
    let doc : Document := ⟨[.extension (.enum { name := "type", values := [value] }), .scalar { name := "extend" }]⟩
    doc.WellFormed ∧ Document.parse doc.print = .ok doc := by
  intro use value doc
  have harguments : (Value.list [.int "-1", .object [("on", .null)]]).WellFormed maxNesting := by
    refine .list (List.forall_mem_cons.mpr ⟨.int ⟨['-'], ['1'], rfl, Or.inr rfl, ?_⟩, ?_⟩)
    · exact Or.inr ⟨⟨List.cons_ne_nil _ _, List.forall_mem_singleton.mpr rfl⟩, by decide⟩
    · refine List.forall_mem_singleton.mpr (.object (List.forall_mem_singleton.mpr ?_) ?_)
      · exact (by decide : IsName "on".toList)
      · exact List.forall_mem_singleton.mpr .null
  have huse : use.WellFormed maxNesting :=
    ⟨(by decide : IsName "tag".toList), List.forall_mem_singleton.mpr ⟨(by decide : IsName "order".toList), harguments⟩⟩
  have hvalue : value.WellFormed maxNesting :=
    ⟨(by decide : IsName "implements".toList), List.forall_mem_singleton.mpr huse⟩
  have hdoc : doc.WellFormed := by
    refine List.forall_mem_cons.mpr ⟨⟨?_, rfl, rfl⟩, List.forall_mem_singleton.mpr ?_⟩
    · exact ⟨(by decide : IsName "type".toList), List.forall_mem_nil _, List.forall_mem_singleton.mpr hvalue⟩
    · exact ⟨(by decide : IsName "extend".toList), List.forall_mem_nil _⟩
  exact ⟨hdoc, parse_fits_print.2 doc hdoc⟩

end SchemaModels
