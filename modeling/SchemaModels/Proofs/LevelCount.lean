import SchemaModels.Proofs.ViablePrefix

/-! Counting levels while reading. A parser may hold the number of levels that are open and count it up on entering a
list or object and down on leaving it. What it does on types and values is settled by its own recursion: it reads what
the parser with room for the remaining levels reads, and the count comes back to where it was. Every type and value
that is read takes some token, and has no more levels than there was room for. -/

namespace SchemaModels
set_option autoImplicit false

/-! ## Levels of types and values -/

/-- How many lists of a type stand inside each other. -/
def TypeExpr.nesting : TypeExpr → Nat
  | named _ => 0
  | list item => item.nesting + 1
  | nonNull inner => inner.nesting

mutual

/-- How many lists and objects of a value stand inside each other. -/
def Value.nesting : Value → Nat
  | .list items => itemNesting items + 1
  | .object entries => entryNesting entries + 1
  | _ => 0

def itemNesting : List Value → Nat
  | [] => 0
  | item :: items => max item.nesting (itemNesting items)

def entryNesting : List (String × Value) → Nat
  | [] => 0
  | (_, value) :: entries => max value.nesting (entryNesting entries)

end

theorem itemNesting_le {room : Nat} {items : List Value} (h : ∀ item ∈ items, item.nesting ≤ room) :
    itemNesting items ≤ room := by
  induction items with
  | nil => exact Nat.zero_le room
  | cons item items ih =>
    rw [itemNesting, Nat.max_le]
    exact ⟨h item List.mem_cons_self, ih fun other hother => h other (List.mem_cons_of_mem _ hother)⟩

theorem entryNesting_le {room : Nat} {entries : List (String × Value)} (h : ∀ entry ∈ entries, entry.2.nesting ≤ room) :
    entryNesting entries ≤ room := by
  induction entries with
  | nil => exact Nat.zero_le room
  | cons entry entries ih =>
    rw [entryNesting, Nat.max_le]
    exact ⟨h entry List.mem_cons_self, ih fun other hother => h other (List.mem_cons_of_mem _ hother)⟩

namespace TokenParser

variable {α β : Type} {Q : α → Prop} {R : β → Prop}

/-- All that a parser gives has a property, whatever tokens it reads. -/
def Gives (p : TokenParser α) (Q : α → Prop) : Prop :=
  ∀ ts a rest, p ts = .ok (a, rest) → Q a

theorem gives_any (p : TokenParser α) : Gives p fun _ => True :=
  fun _ _ _ _ => trivial

theorem gives_pure {a : α} (h : Q a) : Gives (pure a) Q := by
  intro ts b rest hp
  cases hp
  exact h

theorem Gives.bind {p : TokenParser α} {f : α → TokenParser β} (hp : Gives p Q) (hf : ∀ a, Q a → Gives (f a) R) :
    Gives (p >>= f) R := by
  intro ts b rest h
  rw [bind_apply] at h
  split at h
  · next a mid hmid => exact hf a (hp ts a mid hmid) mid b rest h
  · cases h

theorem Gives.map {p : TokenParser α} {f : α → β} (hp : Gives p fun a => R (f a)) : Gives (f <$> p) R :=
  Gives.bind hp fun _ => gives_pure

theorem gives_manyUntil {part : TokenParser α} (hp : Gives part Q) (close : Token) :
    Gives (manyUntil close part) fun as => ∀ a ∈ as, Q a := by
  have hbound : ∀ bound, Gives (manyUntilFrom close part bound) fun as => ∀ a ∈ as, Q a := by
    intro bound
    induction bound with
    | nil =>
      intro ts as rest h
      unfold manyUntilFrom at h
      split at h
      · cases h
        exact List.forall_mem_nil _
      · split at h
        · cases h
        · next hpart =>
          cases h
          simpa using hp _ _ _ hpart
    | cons b bound ih =>
      intro ts as rest h
      unfold manyUntilFrom at h
      split at h
      · cases h
        exact List.forall_mem_nil _
      · split at h
        · cases h
        · next hpart =>
          dsimp only at h
          split at h
          · next hmany =>
            cases h
            exact List.forall_mem_cons.mpr ⟨hp _ _ _ hpart, ih _ _ _ hmany⟩
          · cases h
  exact fun ts => hbound ts ts

end TokenParser

namespace Grammar

open TokenParser

theorem nullMark_gives {room : Nat} {type : TypeExpr} (h : type.nesting ≤ room) :
    Gives (nullMark type) fun type => type.nesting ≤ room := by
  refine (gives_any _).bind fun found _ => ?_
  split
  · exact gives_pure h
  · exact gives_pure h

theorem typeLayer_gives {room : Nat} {item : Option (TokenParser TypeExpr)}
    (hitem : ∀ p, item = some p → ∃ inner, room = inner + 1 ∧ Gives p fun type => type.nesting ≤ inner) :
    Gives (typeLayer item) fun type => type.nesting ≤ room := by
  refine (gives_any (accept .bracketOpen)).bind fun found _ => ?_
  cases found with
  | false =>
    have hnamed : Gives (TypeExpr.named <$> TokenParser.name) fun type => type.nesting ≤ room :=
      Gives.map fun _ _ _ _ => Nat.zero_le room
    exact hnamed.bind fun _ => nullMark_gives
  | true =>
    cases item with
    | none =>
      intro ts type rest h
      cases h
    | some p =>
      obtain ⟨room, rfl, hp⟩ := hitem p rfl
      refine hp.bind fun inner hinner => ?_
      refine (gives_any (expect .bracketClose)).bind fun _ _ => ?_
      exact nullMark_gives (Nat.succ_le_succ hinner)

theorem typeExpr_gives (room : Nat) : Gives (typeExpr room) fun type => type.nesting ≤ room := by
  induction room with
  | zero =>
    show Gives (typeLayer none) _
    exact typeLayer_gives nofun
  | succ room ih =>
    show Gives (typeLayer (some (typeExpr room))) _
    refine typeLayer_gives fun p hp => ?_
    cases hp
    exact ⟨room, rfl, ih⟩

theorem plainValue_gives : Gives plainValue fun value => value.nesting = 0 := by
  intro ts value rest h
  cases ts with
  | nil => cases h
  | cons t ts =>
    cases t with
    | name text =>
      cases h
      unfold namedValue
      split_ifs <;> rfl
    | _ => cases h <;> rfl

theorem valueLayer_gives {room : Nat} {item : Option (TokenParser Value)}
    (hitem : ∀ p, item = some p → ∃ inner, room = inner + 1 ∧ Gives p fun value => value.nesting ≤ inner) :
    Gives (valueLayer item) fun value => value.nesting ≤ room := by
  refine (gives_any (accept .dollar)).bind fun found _ => ?_
  cases found with
  | true => exact Gives.map fun _ _ _ _ => Nat.zero_le room
  | false =>
    refine (gives_any (accept .bracketOpen)).bind fun found _ => ?_
    cases found with
    | true =>
      cases item with
      | none =>
        intro ts value rest h
        cases h
      | some p =>
        obtain ⟨room, rfl, hp⟩ := hitem p rfl
        refine Gives.map fun ts items rest h => ?_
        exact Nat.succ_le_succ (itemNesting_le (gives_manyUntil hp .bracketClose ts items rest h))
    | false =>
      refine (gives_any (accept .braceOpen)).bind fun found _ => ?_
      cases found with
      | true =>
        cases item with
        | none =>
          intro ts value rest h
          cases h
        | some p =>
          obtain ⟨room, rfl, hp⟩ := hitem p rfl
          have hentry : Gives (entry p) fun entry => entry.2.nesting ≤ room := by
            refine (gives_any TokenParser.name).bind fun key _ => ?_
            refine (gives_any (expect .colon)).bind fun _ _ => ?_
            exact hp.bind fun value hvalue => gives_pure hvalue
          refine Gives.map fun ts entries rest h => ?_
          exact Nat.succ_le_succ (entryNesting_le (gives_manyUntil hentry .braceClose ts entries rest h))
      | false => exact fun ts value rest h => (plainValue_gives ts value rest h).le.trans (Nat.zero_le room)

theorem value_gives (room : Nat) : Gives (value room) fun value => value.nesting ≤ room := by
  induction room with
  | zero =>
    show Gives (valueLayer none) _
    exact valueLayer_gives nofun
  | succ room ih =>
    show Gives (valueLayer (some (value room))) _
    refine valueLayer_gives fun p hp => ?_
    cases hp
    exact ⟨room, rfl, ih⟩

end Grammar

/-! ## A parser that counts -/

/-- Where a parser stands: how many levels are open, and the unread tokens. -/
structure Cursor where
  depth : Nat
  unread : List Token

/-- A parser that counts the levels that are open. -/
abbrev Counting (α : Type) : Type :=
  StateT Cursor (Except Fault) α

namespace Counting

open TokenParser (accept expect)

variable {α β : Type}

/-- Reading that opens and closes no level. -/
def lift (p : TokenParser α) : Counting α :=
  fun c => (p c.unread).map fun r => (r.1, { c with unread := r.2 })

/-- Opens a level, unless as many are open as are allowed. -/
def enter : Counting Unit :=
  fun c =>
    if c.depth < maxNesting then .ok ((), { c with depth := c.depth + 1 }) else .error ⟨.tooDeep, c.unread⟩

/-- Closes a level. -/
def leave : Counting Unit :=
  fun c => .ok ((), { c with depth := c.depth - 1 })

/-- One layer of a type, with a count of the levels. -/
def typeLayer (item : Counting TypeExpr) : Counting TypeExpr := do
  let type ←
    if ← lift (accept .bracketOpen) then do
      enter
      let inner ← item
      lift (expect .bracketClose)
      leave
      pure (TypeExpr.list inner)
    else
      TypeExpr.named <$> lift TokenParser.name
  if ← lift (accept .bang) then return .nonNull type else return type

def manyUntilFrom (close : Token) (part : Counting α) : List Token → Cursor → Except Fault (List α × Cursor)
  | bound, c =>
    if c.unread.head? = some close then .ok ([], { c with unread := c.unread.tail })
    else
      match part c with
      | .error fault => .error fault
      | .ok (a, c) =>
        match bound with
        | [] => .ok ([a], c)
        | _ :: bound =>
          match manyUntilFrom close part bound c with
          | .ok (as, c) => .ok (a :: as, c)
          | .error fault => .error fault

/-- Parts up to a closing token, at most one for each unread token. -/
def manyUntil (close : Token) (part : Counting α) : Counting (List α) :=
  fun c => manyUntilFrom close part c.unread c

def entry (part : Counting α) : Counting (String × α) := do
  let key ← lift TokenParser.name
  lift (expect .colon)
  let value ← part
  return (key, value)

/-- One layer of a value, with a count of the levels. -/
def valueLayer (item : Counting Value) : Counting Value := do
  if ← lift (accept .dollar) then
    Value.var <$> lift TokenParser.name
  else if ← lift (accept .bracketOpen) then do
    enter
    let items ← manyUntil .bracketClose item
    leave
    return .list items
  else if ← lift (accept .braceOpen) then do
    enter
    let entries ← manyUntil .braceClose (entry item)
    leave
    return .object entries
  else
    lift Grammar.plainValue

/-! ## The count comes back -/

/-- With `d` levels open `p` reads what `q` reads, and then `e` levels are open. -/
def Leads (d e : Nat) (p : Counting α) (q : TokenParser α) : Prop :=
  ∀ ts, p ⟨d, ts⟩ = (q ts).map fun r => (r.1, ⟨e, r.2⟩)

theorem leads_lift (d : Nat) (p : TokenParser α) : Leads d d (lift p) p :=
  fun _ => rfl

theorem leads_pure (d : Nat) (a : α) : Leads d d (pure a) (pure a) :=
  fun _ => rfl

theorem Leads.bind {d e e' : Nat} {p : Counting α} {q : TokenParser α} {f : α → Counting β} {g : α → TokenParser β}
    (hp : Leads d e p q) (hf : ∀ a, Leads e e' (f a) (g a)) : Leads d e' (p >>= f) (q >>= g) := by
  intro ts
  have hstep : (p >>= f) ⟨d, ts⟩ = (p ⟨d, ts⟩).bind fun r => f r.1 r.2 := rfl
  rw [hstep, hp ts, TokenParser.bind_apply]
  cases hq : q ts with
  | error fault => rfl
  | ok r => exact hf r.1 r.2

theorem Leads.map {d e : Nat} {p : Counting α} {q : TokenParser α} (hp : Leads d e p q) (f : α → β) :
    Leads d e (f <$> p) (f <$> q) :=
  hp.bind fun a => leads_pure e (f a)

/-! Entering and leaving read nothing. -/

theorem leads_enter {d e : Nat} (h : d < maxNesting) {f : Unit → Counting β} {q : TokenParser β}
    (hf : Leads (d + 1) e (f ()) q) : Leads d e (enter >>= f) q := by
  have henter : Leads d (d + 1) enter (pure ()) := fun _ => if_pos h
  exact henter.bind fun _ => hf

theorem leads_enter_limit {d : Nat} (h : maxNesting ≤ d) (e : Nat) (f : Unit → Counting β) :
    Leads d e (enter >>= f) (TokenParser.fail .tooDeep) := by
  have henter : Leads d d enter (TokenParser.fail .tooDeep) := fun _ => if_neg (Nat.not_lt.mpr h)
  intro ts
  have hstep : (enter >>= f) ⟨d, ts⟩ = (enter ⟨d, ts⟩).bind fun r => f r.1 r.2 := rfl
  rw [hstep, henter ts]
  rfl

theorem leads_leave {d e : Nat} {f : Unit → Counting β} {q : TokenParser β} (hf : Leads d e (f ()) q) :
    Leads (d + 1) e (leave >>= f) q := by
  have hleave : Leads (d + 1) d leave (pure ()) := fun _ => rfl
  exact hleave.bind fun _ => hf

theorem leads_manyUntil {d : Nat} {part : Counting α} {q : TokenParser α} (hp : Leads d d part q) (close : Token) :
    Leads d d (manyUntil close part) (TokenParser.manyUntil close q) := by
  have hbound : ∀ bound, Leads d d (manyUntilFrom close part bound) (TokenParser.manyUntilFrom close q bound) := by
    intro bound
    induction bound with
    | nil =>
      intro ts
      unfold manyUntilFrom TokenParser.manyUntilFrom
      rw [hp ts]
      split
      · rfl
      · cases q ts <;> rfl
    | cons b bound ih =>
      intro ts
      unfold manyUntilFrom TokenParser.manyUntilFrom
      rw [hp ts]
      split
      · rfl
      · cases q ts with
        | error fault => rfl
        | ok r =>
          have hmore := ih r.2
          simp only [Except.map, hmore]
          cases TokenParser.manyUntilFrom close q bound r.2 <;> rfl
  exact fun ts => hbound ts ts

theorem leads_entry {d : Nat} {part : Counting α} {q : TokenParser α} (hp : Leads d d part q) :
    Leads d d (entry part) (Grammar.entry q) := by
  refine (leads_lift d TokenParser.name).bind fun key => ?_
  refine (leads_lift d (expect .colon)).bind fun _ => ?_
  exact hp.bind fun value => leads_pure d _

theorem leads_nullMark (d : Nat) (type : TypeExpr) :
    Leads d d (do if ← lift (accept .bang) then return .nonNull type else return type) (Grammar.nullMark type) := by
  refine (leads_lift d (accept .bang)).bind fun found => ?_
  cases found <;> exact leads_pure d _

theorem typeLayer_leads {d : Nat} (h : d < maxNesting) {item : Counting TypeExpr} {q : TokenParser TypeExpr}
    (hitem : Leads (d + 1) (d + 1) item q) : Leads d d (typeLayer item) (Grammar.typeLayer (some q)) := by
  refine (leads_lift d (accept .bracketOpen)).bind fun found => ?_
  cases found with
  | false => exact ((leads_lift d TokenParser.name).map _).bind (leads_nullMark d)
  | true =>
    refine leads_enter h ?_
    refine hitem.bind fun inner => ?_
    refine (leads_lift (d + 1) (expect .bracketClose)).bind fun _ => ?_
    exact leads_leave (leads_nullMark d (.list inner))

theorem typeLayer_leads_limit {d : Nat} (h : maxNesting ≤ d) (item : Counting TypeExpr) :
    Leads d d (typeLayer item) (Grammar.typeLayer none) := by
  refine (leads_lift d (accept .bracketOpen)).bind fun found => ?_
  cases found with
  | false => exact ((leads_lift d TokenParser.name).map _).bind (leads_nullMark d)
  | true => exact leads_enter_limit h d _

theorem valueLayer_leads {d : Nat} (h : d < maxNesting) {item : Counting Value} {q : TokenParser Value}
    (hitem : Leads (d + 1) (d + 1) item q) : Leads d d (valueLayer item) (Grammar.valueLayer (some q)) := by
  refine (leads_lift d (accept .dollar)).bind fun found => ?_
  cases found with
  | true => exact (leads_lift d TokenParser.name).map _
  | false =>
    refine (leads_lift d (accept .bracketOpen)).bind fun found => ?_
    cases found with
    | true =>
      refine leads_enter h ?_
      refine (leads_manyUntil hitem .bracketClose).bind fun items => ?_
      exact leads_leave (leads_pure d _)
    | false =>
      refine (leads_lift d (accept .braceOpen)).bind fun found => ?_
      cases found with
      | true =>
        refine leads_enter h ?_
        refine (leads_manyUntil (leads_entry hitem) .braceClose).bind fun entries => ?_
        exact leads_leave (leads_pure d _)
      | false => exact leads_lift d Grammar.plainValue

theorem valueLayer_leads_limit {d : Nat} (h : maxNesting ≤ d) (item : Counting Value) :
    Leads d d (valueLayer item) (Grammar.valueLayer none) := by
  refine (leads_lift d (accept .dollar)).bind fun found => ?_
  cases found with
  | true => exact (leads_lift d TokenParser.name).map _
  | false =>
    refine (leads_lift d (accept .bracketOpen)).bind fun found => ?_
    cases found with
    | true => exact leads_enter_limit h d _
    | false =>
      refine (leads_lift d (accept .braceOpen)).bind fun found => ?_
      cases found with
      | true => exact leads_enter_limit h d _
      | false => exact leads_lift d Grammar.plainValue

/-- The parser with room for the levels that are not open; the count is kept as it is. -/
def kept (q : Nat → TokenParser α) : Counting α :=
  fun c => lift (q (maxNesting - c.depth)) c

theorem eq_kept_iff_leads {p : Counting α} {q : Nat → TokenParser α} :
    p = kept q ↔ ∀ d, Leads d d p (q (maxNesting - d)) := by
  constructor
  · rintro rfl d ts
    rfl
  · intro h
    funext c
    exact h c.depth c.unread

/-- A recursion on levels has one solution, since no level is opened beyond the limit. -/
theorem eq_kept_iff {layer : Counting α → Counting α} {q : Nat → TokenParser α}
    (hbelow : ∀ {d item room}, d < maxNesting → Leads (d + 1) (d + 1) item (q room) →
      Leads d d (layer item) (q (room + 1)))
    (hlimit : ∀ {d item}, maxNesting ≤ d → Leads d d (layer item) (q 0)) {p : Counting α} :
    p = layer p ↔ p = kept q := by
  have hstep : ∀ (item : Counting α) (d : Nat),
      (d < maxNesting → Leads (d + 1) (d + 1) item (q (maxNesting - (d + 1)))) →
        Leads d d (layer item) (q (maxNesting - d)) := by
    intro item d hitem
    by_cases hd : d < maxNesting
    · have hroom : maxNesting - d = maxNesting - (d + 1) + 1 := by omega
      rw [hroom]
      exact hbelow hd (hitem hd)
    · have hroom : maxNesting - d = 0 := by omega
      rw [hroom]
      exact hlimit (Nat.not_lt.mp hd)
  constructor
  · intro h
    rw [eq_kept_iff_leads]
    intro d
    -- by the room that is left: a part is read with one more level open
    induction hroom : maxNesting - d using Nat.strong_induction_on generalizing d with
    | _ room ih =>
      rw [h, ← hroom]
      refine hstep p d fun hd => ?_
      exact ih (maxNesting - (d + 1)) (by omega) (d + 1) rfl
  · rintro rfl
    refine (eq_kept_iff_leads.mpr fun d => ?_).symm
    exact hstep _ d fun _ => eq_kept_iff_leads.mp rfl (d + 1)

theorem types_eq_iff {types : Counting TypeExpr} : types = typeLayer types ↔ types = kept Grammar.typeExpr :=
  eq_kept_iff (fun hd hitem => typeLayer_leads hd hitem) fun hd => typeLayer_leads_limit hd _

theorem values_eq_iff {values : Counting Value} : values = valueLayer values ↔ values = kept Grammar.value :=
  eq_kept_iff (fun hd hitem => valueLayer_leads hd hitem) fun hd => valueLayer_leads_limit hd _

end Counting

end SchemaModels
