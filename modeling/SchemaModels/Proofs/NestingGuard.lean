import SchemaModels.Proofs.LevelCount
import SchemaModels.Proofs.OpenLevels

/-! The limit on nesting. A parser that counts the levels that it has open, up on entering and down on leaving, is the
parser with room for so many levels less, and the count is back where it was when a type or value has been read. A
schema is refused as nested too deep exactly if its first wrong token opens a list or object of a type or value inside
as many others as are allowed. -/

namespace SchemaModels
set_option autoImplicit false
set_option maxRecDepth 10000

namespace TokenParser

variable {α β : Type}

/-! ## Parts up to the end -/

section End

variable {P : List Token → Prop} {part part' : TokenParser α} {fault fault' : Fault}

/-- Tokens are read to the end, or more are wanted there. -/
def EndWants (part : TokenParser α) (ts : List Token) : Prop :=
  (∃ as, manyToEnd part ts = .ok as) ∨ ∃ cause, cause ≠ Cause.tooDeep ∧ manyToEnd part ts = .error ⟨cause, []⟩

theorem Wants.toEnd {ts : List Token} (h : Wants part ts) : EndWants part ts := by
  cases ts with
  | nil => exact Or.inl ⟨[], rfl⟩
  | cons t ts =>
    obtain ⟨cause, hcause, hpart⟩ := h
    exact Or.inr ⟨cause, hcause, manyToEnd_fault hpart (List.cons_ne_nil t ts)⟩

theorem EndWants.cons {ts rest : List Token} {a : α} (h : EndWants part rest)
    (hpart : manyToEnd part ts = (manyToEnd part rest).map (a :: ·)) : EndWants part ts := by
  rcases h with ⟨as, hrest⟩ | ⟨cause, hcause, hrest⟩
  · exact Or.inl ⟨a :: as, by rw [hpart, hrest]; rfl⟩
  · exact Or.inr ⟨cause, hcause, by rw [hpart, hrest]; rfl⟩

theorem manyToEnd_within (hp : Guarded 0 P part part') (hread : Predictive part) (hread' : Predictive part')
    (hnil : part [] = .error fault) (hnil' : part' [] = .error fault') {ts : List Token}
    (hdeep : ∀ unread, manyToEnd part ts ≠ .error ⟨.tooDeep, unread⟩) : manyToEnd part' ts = manyToEnd part ts := by
  induction hlength : ts.length using Nat.strong_induction_on generalizing ts with
  | _ n ih =>
    by_cases hne : ts = []
    · rw [hne]
      rfl
    have hsame : part' ts = part ts := (hp ts).within fun unread h => hdeep unread (manyToEnd_fault h hne)
    cases hpart : part ts with
    | error fault => rw [manyToEnd_fault hpart hne, manyToEnd_fault (hsame.trans hpart) hne]
    | ok r =>
      have hlt := (hread ts).length_lt hnil hpart
      have hmore := manyToEnd_part hread hnil hpart
      rw [hmore, manyToEnd_part hread' hnil' (hsame.trans hpart)]
      refine congrArg _ (ih _ (by omega) (fun unread h => hdeep unread ?_) rfl)
      rw [hmore, h]
      rfl

theorem manyToEnd_deep (hp : Guarded 0 P part part') (hread : Predictive part) (hread' : Predictive part')
    (hnil : part [] = .error fault) (hnil' : part' [] = .error fault') {ts unread : List Token}
    (h : manyToEnd part ts = .error ⟨.tooDeep, unread⟩) :
    ∃ front t opened, ts = front ++ t :: unread ∧ Leaves front opened ∧ P opened ∧ t.opensLevel = true ∧
      (∀ more, manyToEnd part (front ++ t :: more) = .error ⟨.tooDeep, more⟩) ∧
      EndWants part front ∧ EndWants part' (front ++ [t]) := by
  induction hlength : ts.length using Nat.strong_induction_on generalizing ts with
  | _ n ih =>
    by_cases hne : ts = []
    · rw [hne] at h
      cases h
    cases hpart : part ts with
    | error fault =>
      rw [manyToEnd_fault hpart hne] at h
      cases h
      obtain ⟨front, t, opened, hts, hleaves, hP, hover⟩ := (hp ts).deep hpart
      refine ⟨front, t, opened, hts, hleaves, hP, hover.level, fun more => ?_, hover.before.toEnd, hover.beyond.toEnd⟩
      exact manyToEnd_fault (hover.stuck more) (by simp)
    | ok r =>
      obtain ⟨a, rest⟩ := r
      have hlt := (hread ts).length_lt hnil hpart
      have hrest : manyToEnd part rest = .error ⟨.tooDeep, unread⟩ := by
        rw [manyToEnd_part hread hnil hpart] at h
        cases hmany : manyToEnd part rest with
        | ok as =>
          rw [hmany] at h
          cases h
        | error fault =>
          rw [hmany] at h
          cases h
          rfl
      obtain ⟨back, t, opened, rfl, hleaves, hP, hlevel, hstuck, hbefore, hbeyond⟩ := ih _ (by omega) hrest rfl
      obtain ⟨front, hts, hclosed, hagain, hback, hq⟩ := hp.reads_before hread hpart
      have hboth := hclosed.append hleaves
      rw [List.append_nil] at hboth
      refine ⟨front ++ back, t, opened, by rw [hts, List.append_assoc], hboth, hP, hlevel, fun more => ?_,
        hbefore.cons (manyToEnd_part hread hnil hback), ?_⟩
      · rw [List.append_assoc, manyToEnd_part hread hnil (hagain more), hstuck]
        rfl
      · rw [List.append_assoc]
        exact hbeyond.cons (manyToEnd_part hread' hnil' hq)

end End

end TokenParser

namespace Grammar

open TokenParser

/-! ## The first wrong token -/

/-- Some tokens go on to a document whose types and values have room for their levels. -/
def Admits (room : Nat) (front : List Token) : Prop :=
  ∃ more doc, document room (front ++ more) = .ok doc

theorem Admits.of_append {room : Nat} {front back : List Token} (h : Admits room (front ++ back)) :
    Admits room front := by
  obtain ⟨more, doc, hdoc⟩ := h
  exact ⟨back ++ more, doc, by rw [← List.append_assoc, hdoc]⟩

/-- Only one token is the first wrong one. -/
theorem first_wrong_unique {room : Nat} {front front' : List Token} {t t' : Token} {rest rest' : List Token}
    (h : front ++ t :: rest = front' ++ t' :: rest') (hfront : Admits room front) (hwrong : ¬ Admits room (front ++ [t]))
    (hfront' : Admits room front') (hwrong' : ¬ Admits room (front' ++ [t'])) : front = front' := by
  rcases List.append_eq_append_iff.mp h with ⟨middle, rfl, hmiddle⟩ | ⟨middle, rfl, hmiddle⟩
  · cases middle with
    | nil => rw [List.append_nil]
    | cons u middle =>
      cases hmiddle
      have hcut : front ++ t :: middle = front ++ [t] ++ middle := by simp
      exact absurd (hcut ▸ hfront').of_append hwrong
  · cases middle with
    | nil => rw [List.append_nil]
    | cons u middle =>
      cases hmiddle
      have hcut : front' ++ t' :: middle = front' ++ [t'] ++ middle := by simp
      exact absurd (hcut ▸ hfront).of_append hwrong'

theorem document_eq (room : Nat) (ts : List Token) :
    document room ts = (manyToEnd (definition room) ts).map Document.mk := by
  unfold document
  split <;> next h => rw [h]; rfl

theorem document_within {room : Nat} {ts : List Token} (hdeep : ∀ unread, document room ts ≠ .error ⟨.tooDeep, unread⟩) :
    document (room + 1) ts = document room ts := by
  rw [document_eq, document_eq] at *
  refine congrArg _ (manyToEnd_within (definition_guarded room) (definition_predictive room)
    (definition_predictive (room + 1)) rfl rfl fun unread h => hdeep unread ?_)
  rw [h]
  rfl

theorem document_of_le {room room' : Nat} (hle : room ≤ room') {ts : List Token}
    (hdeep : ∀ unread, document room ts ≠ .error ⟨.tooDeep, unread⟩) : document room' ts = document room ts := by
  induction hle with
  | refl => rfl
  | step _ ih => rw [document_within (ih ▸ hdeep), ih]

theorem Admits.of_le {room room' : Nat} (hle : room ≤ room') {front : List Token} (h : Admits room front) :
    Admits room' front := by
  obtain ⟨more, doc, hdoc⟩ := h
  refine ⟨more, doc, (document_of_le hle fun unread hdeep => ?_).trans hdoc⟩
  cases hdoc.symm.trans hdeep

theorem admits_of_endWants {room : Nat} {front : List Token} (h : EndWants (definition room) front) :
    Admits room front := by
  rcases h with ⟨ds, hds⟩ | ⟨cause, hcause, hstop⟩
  · refine ⟨[], ⟨ds⟩, ?_⟩
    rw [List.append_nil, document_eq, hds]
    rfl
  · have hdocument : document room front = .error ⟨cause, []⟩ := by
      rw [document_eq, hstop]
      rfl
    obtain ⟨front', hfront, ⟨more, -, doc, hdoc⟩, -⟩ := document_stops hdocument hcause
    rw [List.append_nil] at hfront
    exact ⟨more, doc, hfront ▸ hdoc⟩

/-- Where room ends, the token just read is the first wrong one, more room would do, and all room is used. -/
theorem document_deep {room : Nat} {ts unread : List Token} (h : document room ts = .error ⟨.tooDeep, unread⟩) :
    ∃ front t, ts = front ++ t :: unread ∧ (Admits room front ∧ ¬ Admits room (front ++ [t])) ∧
      (t.opensLevel = true ∧ Admits (room + 1) (front ++ [t])) ∧ openLevels front = room := by
  have hmany : manyToEnd (definition room) ts = .error ⟨.tooDeep, unread⟩ := by
    rw [document_eq] at h
    cases hmany : manyToEnd (definition room) ts with
    | ok ds =>
      rw [hmany] at h
      cases h
    | error fault =>
      rw [hmany] at h
      cases h
      rfl
  obtain ⟨front, t, opened, hts, hleaves, hopened, hlevel, hstuck, hbefore, hbeyond⟩ :=
    manyToEnd_deep (definition_guarded room) (definition_predictive room) (definition_predictive (room + 1)) rfl rfl hmany
  refine ⟨front, t, hts, ⟨admits_of_endWants hbefore, ?_⟩, ⟨hlevel, admits_of_endWants hbeyond⟩, ?_⟩
  · rintro ⟨more, doc, hdoc⟩
    rw [List.append_assoc, List.singleton_append, document_eq, hstuck] at hdoc
    cases hdoc
  · rw [openLevels, hleaves, List.append_nil]
    exact hopened

/-- A fault other than for want of room stays, however much room there is. -/
theorem not_admits_of_fault {room : Nat} {front : List Token} {t : Token} {rest : List Token} {fault : Fault}
    (h : document room (front ++ t :: rest) = .error fault) (hcause : fault.cause ≠ .tooDeep)
    (hfront : Admits room front) (hwrong : ¬ Admits room (front ++ [t])) (room' : Nat) : ¬ Admits room' (front ++ [t]) := by
  intro hadmits
  by_cases hle : room' ≤ room
  · exact hwrong (hadmits.of_le hle)
  have hsame : document room' (front ++ t :: rest) = .error fault := by
    rw [← h]
    refine document_of_le (by omega) fun unread hdeep => hcause ?_
    cases h.symm.trans hdeep
    rfl
  obtain ⟨front', hsplit, ⟨more', -, doc', hdoc'⟩, hstop⟩ := document_stops h hcause
  have hadmits' : Admits room front' := ⟨more', doc', hdoc'⟩
  cases hunread : fault.unread with
  | nil =>
    rw [hunread, List.append_nil] at hsplit
    have hcut : front' = front ++ [t] ++ rest := by rw [← hsplit]; simp
    exact hwrong (hcut ▸ hadmits').of_append
  | cons u after =>
    have hwrong' : ¬ Admits room (front' ++ [u]) := by
      rintro ⟨more, doc, hdoc⟩
      obtain ⟨fault', hfault'⟩ := hstop u (by rw [hunread]; rfl) more
      rw [List.append_assoc, List.singleton_append, hfault'] at hdoc
      cases hdoc
    rw [hunread] at hsplit
    obtain rfl := first_wrong_unique hsplit hfront hwrong hadmits' hwrong'
    -- with more room the same token is refused
    obtain ⟨front', hsplit', -, hstop'⟩ := document_stops hsame hcause
    rw [hunread] at hsplit' hstop'
    obtain rfl : front = front' := List.append_cancel_right (hsplit.symm.trans hsplit')
    cases List.append_cancel_left hsplit
    obtain ⟨more, doc, hdoc⟩ := hadmits
    obtain ⟨fault', hfault'⟩ := hstop' t rfl more
    rw [List.append_assoc, List.singleton_append, hfault'] at hdoc
    cases hdoc

/-- Room ends at a token exactly if it is the first wrong one, opens a level, and more room would do. -/
theorem document_tooDeep_iff {room : Nat} {front unread : List Token} {t : Token} :
    document room (front ++ t :: unread) = .error ⟨.tooDeep, unread⟩ ↔
      (Admits room front ∧ ¬ Admits room (front ++ [t])) ∧
        (t.opensLevel = true ∧ ∃ room', Admits room' (front ++ [t])) ∧ openLevels front = room := by
  constructor
  · intro h
    obtain ⟨front', t', hsplit, hwrong, ⟨hlevel, hmore⟩, hopen⟩ := document_deep h
    have hcut : front ++ [t] ++ unread = front' ++ [t'] ++ unread := by simpa using hsplit
    obtain ⟨rfl, hlast⟩ := List.append_inj' (List.append_cancel_right hcut) rfl
    cases hlast
    exact ⟨hwrong, ⟨hlevel, room + 1, hmore⟩, hopen⟩
  · rintro ⟨⟨hfront, hwrong⟩, ⟨-, room', hadmits⟩, -⟩
    cases hdocument : document room (front ++ t :: unread) with
    | ok doc =>
      refine absurd ⟨unread, doc, ?_⟩ hwrong
      rw [List.append_assoc, List.singleton_append, hdocument]
    | error fault =>
      by_cases hcause : fault.cause = .tooDeep
      · obtain ⟨cause, rest⟩ := fault
        cases hcause
        obtain ⟨front', t', hsplit, ⟨hfront', hwrong'⟩, -⟩ := document_deep hdocument
        obtain rfl := first_wrong_unique hsplit hfront hwrong hfront' hwrong'
        cases List.append_cancel_left hsplit
        rfl
      · exact absurd hadmits (not_admits_of_fault hdocument hcause hfront hwrong room')

end Grammar

/-! ## Types and values -/

namespace Counting

variable {α : Type}

/-- Within the limit, `p` reads what `q` reads with room for the levels that are not open. What it reads takes some
token, leaves the count as it was, and has no more levels than there was room for. -/
def Guards (p : Counting α) (q : Nat → TokenParser α) (nesting : α → Nat) : Prop :=
  ∀ depth ≤ maxNesting, ∀ ts, p ⟨depth, ts⟩ = (q (maxNesting - depth) ts).map (fun r => (r.1, ⟨depth, r.2⟩)) ∧
    ∀ a c, p ⟨depth, ts⟩ = .ok (a, c) →
      c.depth = depth ∧ (∃ front, front ≠ [] ∧ ts = front ++ c.unread) ∧ depth + nesting a ≤ maxNesting

theorem guards_kept {q : Nat → TokenParser α} {nesting : α → Nat} (hread : ∀ room, TokenParser.Predictive (q room))
    (hnil : ∀ room, ∃ fault, q room [] = .error fault)
    (hgives : ∀ room, TokenParser.Gives (q room) fun a => nesting a ≤ room) : Guards (kept q) q nesting := by
  intro depth hdepth ts
  refine ⟨rfl, fun a c h => ?_⟩
  change (q (maxNesting - depth) ts).map _ = _ at h
  cases hq : q (maxNesting - depth) ts with
  | error fault =>
    rw [hq] at h
    cases h
  | ok r =>
    rw [hq] at h
    cases h
    obtain ⟨fault, hfault⟩ := hnil (maxNesting - depth)
    have hlt := (hread _ ts).length_lt hfault hq
    obtain ⟨front, rfl, -⟩ := (hread _ ts).reads hq
    refine ⟨rfl, ⟨front, ?_, rfl⟩, ?_⟩
    · rintro rfl
      exact Nat.lt_irrefl _ hlt
    · have hroom := hgives _ _ _ _ hq
      omega

theorem guards_types {types : Counting TypeExpr} (h : types = typeLayer types) :
    Guards types Grammar.typeExpr TypeExpr.nesting := by
  rw [types_eq_iff.mp h]
  refine guards_kept (fun room => (Grammar.typeExpr_incremental room).predictive) (fun room => ?_) Grammar.typeExpr_gives
  obtain ⟨item, hlayer⟩ := Grammar.typeExpr_layer room
  rw [hlayer]
  exact ⟨_, rfl⟩

theorem guards_values {values : Counting Value} (h : values = valueLayer values) :
    Guards values Grammar.value Value.nesting := by
  rw [values_eq_iff.mp h]
  exact guards_kept (fun room => (Grammar.value_incremental room).predictive)
    (fun room => ⟨_, Grammar.value_nil room⟩) Grammar.value_gives

end Counting

/-! ## Schemas -/

namespace ParseError

theorem nestingTooDeep_of_ofFault {source : List Char} {lexemes : List Lexeme} {fault : Fault} {position : Position}
    (h : ofFault source lexemes fault = .nestingTooDeep position) : fault.cause = .tooDeep := by
  unfold ofFault at h
  cases hcause : fault.cause with
  | tooDeep => rfl
  | expected what =>
    rw [hcause] at h
    cases hdrop : lexemes.drop (lexemes.length - fault.unread.length) <;> rw [hdrop] at h <;> cases h
  | executable =>
    rw [hcause] at h
    cases hdrop : lexemes.drop (lexemes.length - fault.unread.length) <;> rw [hdrop] at h <;> cases h

/-- Nesting is refused at the token behind the bracket that goes too deep, or at the end. -/
theorem ofFault_nestingTooDeep (source : List Char) (before after : List Lexeme) :
    ofFault source (before ++ after) ⟨.tooDeep, after.map Lexeme.token⟩ =
      .nestingTooDeep (Position.ofOffset source ((after.head?.map Lexeme.start).getD (byteLength source))) := by
  have hdrop : (before ++ after).drop ((before ++ after).length - (after.map Lexeme.token).length) = after := by
    rw [List.length_map, List.length_append, Nat.add_sub_cancel, List.drop_left]
  unfold ofFault
  rw [hdrop]
  cases after <;> rfl

end ParseError

namespace Document

theorem ofChars_nestingTooDeep_iff (text : List Char) (position : Position) :
    Document.ofChars text = .error (.nestingTooDeep position) ↔
      ∃ before l after, tokenize (Text.dropByteOrderMark text) = .ok (before ++ l :: after) ∧
        Grammar.document maxNesting ((before ++ l :: after).map Lexeme.token) =
          .error ⟨.tooDeep, after.map Lexeme.token⟩ ∧
        position = Position.ofOffset (Text.dropByteOrderMark text)
          ((after.head?.map Lexeme.start).getD (byteLength (Text.dropByteOrderMark text))) := by
  generalize hsource : Text.dropByteOrderMark text = source
  constructor
  · intro h
    cases htokens : tokenize source with
    | error e =>
      have hscan := htokens
      simp only [Document.ofChars, hsource, htokens] at h
      cases h
      unfold tokenize at hscan
      cases hlexemes : Lexeme.scan source <;> rw [hlexemes] at hscan <;> cases hscan
    | ok lexemes =>
      subst hsource
      obtain ⟨fault, hdocument, herror⟩ := Document.exists_fault htokens h
      have hcause := ParseError.nestingTooDeep_of_ofFault herror.symm
      obtain ⟨cause, unread⟩ := fault
      cases hcause
      obtain ⟨front, t, hts, -⟩ := Grammar.document_deep hdocument
      obtain ⟨before, rest, rfl, -, hrest⟩ := List.map_eq_append_iff.mp hts
      obtain ⟨l, after, rfl, -, rfl⟩ := List.map_eq_cons_iff.mp hrest
      have hcut : before ++ l :: after = (before ++ [l]) ++ after := by simp
      refine ⟨before, l, after, rfl, hdocument, ?_⟩
      rw [hcut, ParseError.ofFault_nestingTooDeep] at herror
      cases herror
      rfl
  · rintro ⟨before, l, after, htokens, hdocument, rfl⟩
    have hcut : before ++ l :: after = (before ++ [l]) ++ after := by simp
    simp only [Document.ofChars, hsource, htokens, hdocument, Except.mapError]
    rw [hcut, ParseError.ofFault_nestingTooDeep]

/-- Types and values are read with the count of levels kept and within the limit. A schema is nested too deep exactly
if its first wrong token, one that more room would make right, opens a list or object of a type or value inside as many
others as are allowed. -/
theorem nesting_guard {types : Counting TypeExpr} {values : Counting Value} (htypes : types = Counting.typeLayer types)
    (hvalues : values = Counting.valueLayer values) :
    (types.Guards Grammar.typeExpr TypeExpr.nesting ∧ values.Guards Grammar.value Value.nesting) ∧
    ∀ text position, Document.ofChars text = .error (.nestingTooDeep position) ↔
      ∃ before l after, tokenize (Text.dropByteOrderMark text) = .ok (before ++ l :: after) ∧
        (Grammar.Admits maxNesting (before.map Lexeme.token) ∧
          ¬ Grammar.Admits maxNesting ((before ++ [l]).map Lexeme.token)) ∧
        (l.token.opensLevel = true ∧ ∃ room, Grammar.Admits room ((before ++ [l]).map Lexeme.token)) ∧
        openLevels (before.map Lexeme.token) = maxNesting ∧
        position = Position.ofOffset (Text.dropByteOrderMark text)
          ((after.head?.map Lexeme.start).getD (byteLength (Text.dropByteOrderMark text))) := by
  refine ⟨⟨Counting.guards_types htypes, Counting.guards_values hvalues⟩, fun text position => ?_⟩
  rw [ofChars_nestingTooDeep_iff]
  refine exists_congr fun before => exists_congr fun l => exists_congr fun after => and_congr_right fun _ => ?_
  rw [List.map_append, List.map_cons, Grammar.document_tooDeep_iff, List.map_append, List.map_singleton]
  simp only [and_assoc]

/-- One level below the limit a list is read; one bracket more than are allowed, and nothing behind it, is refused. -/
theorem nesting_guard_limit :
    let types := Counting.kept Grammar.typeExpr
    let text := "input I \x7b f: ".toList ++ List.replicate (maxNesting + 1) '['
    (types ⟨127, [.bracketOpen, .name "A", .bracketClose]⟩ = .ok (.list (.named "A"), ⟨127, []⟩) ∧
      127 + (TypeExpr.list (.named "A")).nesting ≤ maxNesting) ∧
    Document.ofChars text = .error (.nestingTooDeep ⟨1, 143⟩) ∧
    ∃ before l after, tokenize (Text.dropByteOrderMark text) = .ok (before ++ l :: after) ∧
      l.token.opensLevel = true ∧ openLevels (before.map Lexeme.token) = maxNesting := by
  intro types text
  obtain ⟨⟨htypes, -⟩, hdeep⟩ := nesting_guard (Counting.types_eq_iff.mpr rfl) (Counting.values_eq_iff.mpr rfl)
  have hlist : types ⟨127, [.bracketOpen, .name "A", .bracketClose]⟩ = .ok (.list (.named "A"), ⟨127, []⟩) := rfl
  have hlexemes : tokenize (Text.dropByteOrderMark text) =
      .ok ([⟨.name "input", "input", 0, 5⟩, ⟨.name "I", "I", 6, 7⟩, ⟨.braceOpen, "\x7b", 8, 9⟩, ⟨.name "f", "f", 10, 11⟩,
        ⟨.colon, ":", 11, 12⟩] ++ (List.range (maxNesting + 1)).map fun i => ⟨.bracketOpen, "[", 13 + i, 14 + i⟩) := by
    decide +kernel
  have hrefused : Document.ofChars text = .error (.nestingTooDeep ⟨1, 143⟩) :=
    (Document.ofChars_of_tokenize hlexemes).trans rfl
  obtain ⟨before, l, after, htokens, -, ⟨hlevel, -⟩, hopen, -⟩ := (hdeep text ⟨1, 143⟩).mp hrefused
  exact ⟨⟨hlist, ((htypes 127 (by decide) _).2 _ _ hlist).2.2⟩, hrefused, before, l, after, htokens, hlevel, hopen⟩

end Document

end SchemaModels
