import SchemaModels.Proofs.ViablePrefix

/-! Levels that are open. The brackets of an accepted text close in the order in which they opened, so the lists and
objects that are open at a token are told by the tokens before it. A parser with room for so many levels reads as one
with more room does, until a bracket would open a level for which no room is left; so many levels are open there. -/

namespace SchemaModels
set_option autoImplicit false

/-! ## Open brackets -/

namespace Token

def opens : Token → Bool
  | braceOpen | parenOpen | bracketOpen => true
  | _ => false

def closes : Token → Bool
  | braceClose | parenClose | bracketClose => true
  | _ => false

/-- Whether a token opens a list or an object, or the body of a definition. -/
def opensLevel : Token → Bool
  | braceOpen | bracketOpen => true
  | _ => false

end Token

/-- The open brackets after one more token, the innermost first. -/
def bracketStep (stack : List Token) (t : Token) : List Token :=
  if t.opens then t :: stack else if t.closes then stack.tail else stack

theorem bracketStep_close {close : Token} (h : close.closes = true) (stack : List Token) :
    bracketStep stack close = stack.drop 1 := by
  rw [List.drop_one]
  cases close <;> first | rfl | cases h

/-- How many of some open brackets are those of types and values: a brace outside all others is the body of a
definition. -/
def levels (stack : List Token) : Nat :=
  (if stack.getLast? = some .braceOpen then stack.dropLast else stack).countP Token.opensLevel

/-- How many lists and objects of a type or value are open after some tokens. -/
def openLevels (ts : List Token) : Nat :=
  levels (ts.foldl bracketStep [])

/-- Behind some tokens a number of brackets is open that were not before, and no other is closed. -/
def Leaves (front opened : List Token) : Prop :=
  ∀ stack, front.foldl bracketStep stack = opened ++ stack

theorem Leaves.append {front front' opened opened' : List Token} (h : Leaves front opened)
    (h' : Leaves front' opened') : Leaves (front ++ front') (opened' ++ opened) := by
  intro stack
  rw [List.foldl_append, h, h', List.append_assoc]

theorem Leaves.cons {t : Token} {opening front opened : List Token} (ht : ∀ stack, bracketStep stack t = opening ++ stack)
    (h : Leaves front opened) : Leaves (t :: front) (opened ++ opening) := by
  intro stack
  rw [List.foldl_cons, ht, h, List.append_assoc]

/-- Room for levels is used up inside of a definition's body or of a type or value. -/
def Inner (room : Nat) (opened : List Token) : Prop :=
  opened.countP Token.opensLevel = room

/-- Room for levels is used up at the outside of a definition. -/
def Outer (room : Nat) (opened : List Token) : Prop :=
  levels opened = room

theorem Inner.level {room : Nat} {opened : List Token} (h : Inner room opened) {t : Token} (ht : t.opensLevel = true) :
    Inner (room + 1) (opened ++ [t]) := by
  rw [Inner, List.countP_append, List.countP_singleton, if_pos ht, h]

theorem Inner.paren {room : Nat} {opened : List Token} (h : Inner room opened) :
    Inner room (opened ++ [.parenOpen]) ∧ Outer room (opened ++ [.parenOpen]) := by
  have hcount : (opened ++ [Token.parenOpen]).countP Token.opensLevel = room := by
    rw [List.countP_append, h]
    rfl
  refine ⟨hcount, ?_⟩
  rw [Outer, levels, List.getLast?_concat, if_neg (by decide), hcount]

theorem Inner.body {room : Nat} {opened : List Token} (h : Inner room opened) : Outer room (opened ++ [.braceOpen]) := by
  rw [Outer, levels, List.getLast?_concat, if_pos rfl, List.dropLast_concat, h]

namespace TokenParser

variable {α β : Type}

/-! ## Room for levels -/

/-- A parser stops at the end for want of more tokens. -/
def Wants (p : TokenParser α) (ts : List Token) : Prop :=
  ∃ cause, cause ≠ Cause.tooDeep ∧ p ts = .error ⟨cause, []⟩

/-- A parser has no room for the level that a token opens, where one with more room goes on. -/
structure Overflow (p q : TokenParser α) (front : List Token) (t : Token) : Prop where
  level : t.opensLevel = true
  stuck : ∀ more, p (front ++ t :: more) = .error ⟨.tooDeep, more⟩
  before : Wants p front
  beyond : Wants q (front ++ [t])

/-- What `p` reads closes `k` brackets more than it opens, and `q` reads it too. Where room ends for `p`, the
brackets that were opened have a property. -/
structure GuardedAt (k : Nat) (P : List Token → Prop) (p q : TokenParser α) (ts : List Token) : Prop where
  pops : ∀ {a : α} {rest : List Token}, p ts = .ok (a, rest) →
    ∃ front, ts = front ++ rest ∧ ∀ stack, front.foldl bracketStep stack = stack.drop k
  within : (∀ unread, p ts ≠ .error ⟨.tooDeep, unread⟩) → q ts = p ts
  deep : ∀ {unread : List Token}, p ts = .error ⟨.tooDeep, unread⟩ →
    ∃ front t opened, ts = front ++ t :: unread ∧ Leaves front opened ∧ P opened ∧ Overflow p q front t

def Guarded (k : Nat) (P : List Token → Prop) (p q : TokenParser α) : Prop :=
  ∀ ts, GuardedAt k P p q ts

theorem bind_error {p : TokenParser α} (f : α → TokenParser β) {ts : List Token} {fault : Fault}
    (h : p ts = .error fault) : (p >>= f) ts = .error fault := by
  rw [bind_apply, h]

theorem Wants.bind {p : TokenParser α} {ts : List Token} (h : Wants p ts) (f : α → TokenParser β) :
    Wants (p >>= f) ts := by
  obtain ⟨cause, hcause, hp⟩ := h
  exact ⟨cause, hcause, bind_error f hp⟩

theorem Overflow.bind {p q : TokenParser α} {front : List Token} {t : Token} (h : Overflow p q front t)
    (f g : α → TokenParser β) : Overflow (p >>= f) (q >>= g) front t where
  level := h.level
  stuck more := bind_error f (h.stuck more)
  before := h.before.bind f
  beyond := h.beyond.bind g

theorem head?_ne_of_alike {ts other : List Token} {t : Token} (h : ts.head? ≠ some t)
    (hother : other.head? = ts.head? ∨ other = []) : other.head? ≠ some t := by
  rcases hother with hsame | rfl
  · rwa [hsame]
  · exact nofun

namespace GuardedAt

variable {k : Nat} {P Q : List Token → Prop} {p q p' q' : TokenParser α} {t : Token} {ts rest : List Token} {a : α}

theorem read (front : List Token) (hp : p (front ++ rest) = .ok (a, rest)) (hq : q (front ++ rest) = .ok (a, rest))
    (hfront : ∀ stack, front.foldl bracketStep stack = stack.drop k) : GuardedAt k P p q (front ++ rest) where
  pops := by
    intro b rest' h
    cases hp.symm.trans h
    exact ⟨front, rfl, hfront⟩
  within _ := hq.trans hp.symm
  deep := by
    intro unread h
    cases hp.symm.trans h

theorem refuse {fault : Fault} (hp : p ts = .error fault) (hq : q ts = .error fault) (hcause : fault.cause ≠ .tooDeep) :
    GuardedAt k P p q ts where
  pops := by
    intro b rest h
    cases hp.symm.trans h
  within _ := hq.trans hp.symm
  deep := by
    intro unread h
    cases hp.symm.trans h
    exact absurd rfl hcause

theorem mono (h : GuardedAt k P p q ts) (hmono : ∀ opened, P opened → Q opened) : GuardedAt k Q p q ts where
  pops := h.pops
  within := h.within
  deep := by
    intro unread hp
    obtain ⟨front, t, opened, hts, hleaves, hP, hover⟩ := h.deep hp
    exact ⟨front, t, opened, hts, hleaves, hmono opened hP, hover⟩

/-- A token that opens brackets, and what follows it. -/
theorem cons (opening : List Token) (ht : ∀ stack, bracketStep stack t = opening ++ stack)
    (hP : ∀ opened, Q opened → P (opened ++ opening)) (hp : ∀ more, p (t :: more) = p' more)
    (hq : ∀ more, q (t :: more) = q' more) (h : GuardedAt (opening.length + k) Q p' q' ts) :
    GuardedAt k P p q (t :: ts) where
  pops := by
    intro b rest hread
    rw [hp] at hread
    obtain ⟨front, rfl, hfront⟩ := h.pops hread
    refine ⟨t :: front, rfl, fun stack => ?_⟩
    rw [List.foldl_cons, ht, hfront, ← List.drop_drop, List.drop_left]
  within hdeep := by
    rw [hp, hq]
    exact h.within fun unread hread => hdeep unread ((hp ts).trans hread)
  deep := by
    intro unread hdeep
    rw [hp] at hdeep
    obtain ⟨front, u, opened, rfl, hleaves, hQ, hover⟩ := h.deep hdeep
    refine ⟨t :: front, u, opened ++ opening, rfl, hleaves.cons ht, hP opened hQ, hover.level, ?_, ?_, ?_⟩
    · exact fun more => (hp _).trans (hover.stuck more)
    · obtain ⟨cause, hcause, hbefore⟩ := hover.before
      exact ⟨cause, hcause, (hp _).trans hbefore⟩
    · obtain ⟨cause, hcause, hbeyond⟩ := hover.beyond
      exact ⟨cause, hcause, (hq _).trans hbeyond⟩

theorem pass (ht : ∀ stack, bracketStep stack t = stack) (hp : ∀ more, p (t :: more) = p' more)
    (hq : ∀ more, q (t :: more) = q' more) (h : GuardedAt k P p' q' ts) : GuardedAt k P p q (t :: ts) :=
  cons [] ht (fun opened hP => by rwa [List.append_nil]) hp hq (by rwa [List.length_nil, Nat.zero_add])

/-- Parsers that do the same on all tokens with the same first one, and on none. -/
theorem congr (h : GuardedAt k P p q ts)
    (hsame : ∀ other, other.head? = ts.head? ∨ other = [] → p' other = p other ∧ q' other = q other) :
    GuardedAt k P p' q' ts where
  pops := by
    intro b rest hread
    rw [(hsame ts (Or.inl rfl)).1] at hread
    exact h.pops hread
  within hdeep := by
    rw [(hsame ts (Or.inl rfl)).1] at hdeep ⊢
    exact (hsame ts (Or.inl rfl)).2.trans (h.within hdeep)
  deep := by
    intro unread hdeep
    rw [(hsame ts (Or.inl rfl)).1] at hdeep
    obtain ⟨front, u, opened, rfl, hleaves, hP, hover⟩ := h.deep hdeep
    have hnext : ∀ more, (front ++ u :: more).head? = (front ++ u :: unread).head? := by
      intro more
      cases front <;> rfl
    refine ⟨front, u, opened, rfl, hleaves, hP, hover.level, fun more => ?_, ?_, ?_⟩
    · exact (hsame _ (Or.inl (hnext more))).1.trans (hover.stuck more)
    · obtain ⟨cause, hcause, hbefore⟩ := hover.before
      refine ⟨cause, hcause, (hsame _ ?_).1.trans hbefore⟩
      cases front with
      | nil => exact Or.inr rfl
      | cons v front => exact Or.inl rfl
    · obtain ⟨cause, hcause, hbeyond⟩ := hover.beyond
      exact ⟨cause, hcause, (hsame _ (Or.inl (hnext []))).2.trans hbeyond⟩

theorem map (h : GuardedAt k P p q ts) (f : α → β) : GuardedAt k P (f <$> p) (f <$> q) ts where
  pops := by
    intro b rest hread
    rw [map_apply] at hread
    split at hread
    · next hp =>
      cases hread
      exact h.pops hp
    · cases hread
  within hdeep := by
    rw [map_apply, map_apply, h.within fun unread hp => hdeep unread (bind_error _ hp)]
  deep := by
    intro unread hdeep
    rw [map_apply] at hdeep
    split at hdeep
    · cases hdeep
    · next hp =>
      cases hdeep
      obtain ⟨front, t, opened, hts, hleaves, hP, hover⟩ := h.deep hp
      exact ⟨front, t, opened, hts, hleaves, hP, hover.bind _ _⟩

end GuardedAt

/-- What a part reads before a token, it reads whatever follows that token, up to it only, and with more room. -/
theorem Guarded.reads_before {P : List Token → Prop} {p q : TokenParser α} (hp : Guarded 0 P p q) (hread : Predictive p)
    {ts back unread : List Token} {t : Token} {a : α} (h : p ts = .ok (a, back ++ t :: unread)) :
    ∃ front, ts = front ++ (back ++ t :: unread) ∧ Leaves front [] ∧
      (∀ more, p (front ++ (back ++ t :: more)) = .ok (a, back ++ t :: more)) ∧
      p (front ++ back) = .ok (a, back) ∧ q (front ++ (back ++ [t])) = .ok (a, back ++ [t]) := by
  obtain ⟨front, hts, hother⟩ := (hread ts).reads h
  obtain ⟨front', hts', hfront⟩ := (hp ts).pops h
  obtain rfl : front = front' := List.append_cancel_right (hts.symm.trans hts')
  have hagain : ∀ more, p (front ++ (back ++ t :: more)) = .ok (a, back ++ t :: more) := by
    intro more
    refine hother _ (Or.inl ?_)
    cases back <;> rfl
  refine ⟨front, hts, fun stack => ?_, hagain, hother back ?_, ?_⟩
  · rw [hfront, List.drop_zero, List.nil_append]
  · cases back with
    | nil => exact Or.inr settled_nil
    | cons u back => exact Or.inl rfl
  · rw [← hagain []]
    refine (hp _).within fun unread hdeep => ?_
    cases (hagain []).symm.trans hdeep

/-- One part and then another. -/
theorem GuardedAt.bind {k : Nat} {P : List Token → Prop} {p q : TokenParser α} {ts : List Token}
    {f g : α → TokenParser β} (hp : Guarded 0 P p q) (hread : Predictive p)
    (hf : ∀ a rest, p ts = .ok (a, rest) → GuardedAt k P (f a) (g a) rest) : GuardedAt k P (p >>= f) (q >>= g) ts where
  pops := by
    intro b rest h
    rw [bind_apply] at h
    split at h
    · next a mid hmid =>
      obtain ⟨front, rfl, hfront⟩ := (hp ts).pops hmid
      obtain ⟨front', rfl, hfront'⟩ := (hf a mid hmid).pops h
      refine ⟨front ++ front', (List.append_assoc ..).symm, fun stack => ?_⟩
      rw [List.foldl_append, hfront, hfront', List.drop_zero]
    · cases h
  within hdeep := by
    have hfirst : q ts = p ts := (hp ts).within fun unread h => hdeep unread (bind_error f h)
    rw [bind_apply, bind_apply, hfirst]
    cases hmid : p ts with
    | error fault => rfl
    | ok r => exact (hf r.1 r.2 hmid).within fun unread h => hdeep unread (bind_of hmid h)
  deep := by
    intro unread h
    rw [bind_apply] at h
    split at h
    · next a mid hmid =>
      -- room ends in the second part, and the first one reads as much whatever follows there
      obtain ⟨back, t, opened, rfl, hleaves, hP, hover⟩ := (hf a mid hmid).deep h
      obtain ⟨front, hts, hclosed, hagain, hback, hq⟩ := hp.reads_before hread hmid
      have hboth := hclosed.append hleaves
      rw [List.append_nil] at hboth
      obtain ⟨cause, hcause, hbefore⟩ := hover.before
      obtain ⟨cause', hcause', hbeyond⟩ := hover.beyond
      refine ⟨front ++ back, t, opened, by rw [hts, List.append_assoc], hboth, hP, hover.level, fun more => ?_,
        ⟨cause, hcause, bind_of hback hbefore⟩, ⟨cause', hcause', ?_⟩⟩
      · rw [List.append_assoc]
        exact bind_of (hagain more) (hover.stuck more)
      · rw [List.append_assoc]
        exact bind_of hq hbeyond
    · next fault hfault =>
      cases h
      obtain ⟨front, t, opened, hts, hleaves, hP, hover⟩ := (hp ts).deep hfault
      exact ⟨front, t, opened, hts, hleaves, hP, hover.bind f g⟩

namespace Guarded

variable {k : Nat} {P Q : List Token → Prop} {p q : TokenParser α}

theorem mono (h : Guarded k P p q) (hmono : ∀ opened, P opened → Q opened) : Guarded k Q p q :=
  fun ts => (h ts).mono hmono

theorem bind {f g : α → TokenParser β} (hp : Guarded 0 P p q) (hread : Predictive p)
    (hf : ∀ a, Guarded k P (f a) (g a)) : Guarded k P (p >>= f) (q >>= g) :=
  fun _ => .bind hp hread fun a rest _ => hf a rest

theorem pure (a : α) : Guarded 0 P (pure a : TokenParser α) (Pure.pure a) :=
  fun _ => .read [] rfl rfl fun _ => rfl

theorem map (h : Guarded k P p q) (f : α → β) : Guarded k P (f <$> p) (f <$> q) :=
  fun ts => (h ts).map f

end Guarded

section Parsers

variable {k : Nat} {P Q : List Token → Prop}

theorem guarded_expect {t : Token} (ht : ∀ stack, bracketStep stack t = stack.drop k) :
    Guarded k P (expect t) (expect t) := by
  intro ts
  by_cases hhead : ts.head? = some t
  · obtain ⟨more, rfl⟩ := List.head?_eq_some_iff.mp hhead
    exact .read [t] (expect_next t more) (expect_next t more) ht
  · exact .refuse (if_neg hhead) (if_neg hhead) nofun

/-- A closing token, and behind it what never runs out of room. -/
theorem guarded_close_bind {close : Token} (hclose : close.closes = true) {f g : Unit → TokenParser α}
    (hrest : Guarded 0 (fun _ => False) (f ()) (g ())) : Guarded 1 P (expect close >>= f) (expect close >>= g) := by
  intro ts
  by_cases hhead : ts.head? = some close
  · obtain ⟨more, rfl⟩ := List.head?_eq_some_iff.mp hhead
    have hf : (expect close >>= f) (close :: more) = f () more := bind_of (expect_next close more) rfl
    have hg : (expect close >>= g) (close :: more) = g () more := bind_of (expect_next close more) rfl
    have hshallow : ∀ unread, f () more ≠ .error ⟨.tooDeep, unread⟩ := by
      intro unread hdeep
      obtain ⟨_, _, _, _, _, hfalse, _⟩ := (hrest more).deep hdeep
      exact hfalse
    refine ⟨fun {a rest} h => ?_, fun _ => ?_, fun {unread} h => absurd (hf.symm.trans h) (hshallow unread)⟩
    · rw [hf] at h
      obtain ⟨front, rfl, hfront⟩ := (hrest more).pops h
      refine ⟨close :: front, rfl, fun stack => ?_⟩
      rw [List.foldl_cons, bracketStep_close hclose, hfront, List.drop_zero]
    · rw [hf, hg]
      exact (hrest more).within hshallow
  · exact .refuse (bind_error f (if_neg hhead)) (bind_error g (if_neg hhead)) nofun

theorem guarded_name : Guarded 0 P name name := by
  intro ts
  cases ts with
  | nil => exact .refuse rfl rfl nofun
  | cons t ts =>
    cases t with
    | name text => exact .read [.name text] rfl rfl fun _ => rfl
    | _ => exact .refuse rfl rfl nofun

theorem guarded_string? : Guarded 0 P string? string? := by
  intro ts
  cases ts with
  | nil => exact .read [] rfl rfl fun _ => rfl
  | cons t ts =>
    cases t with
    | string value => exact .read [.string value] rfl rfl fun _ => rfl
    | blockString value => exact .read [.blockString value] rfl rfl fun _ => rfl
    | _ => exact .read [] rfl rfl fun _ => rfl

/-- What a token decides by standing next, and the brackets that it opens. -/
theorem guarded_accept_bind {t : Token} (opening : List Token) (ht : ∀ stack, bracketStep stack t = opening ++ stack)
    (hP : ∀ opened, Q opened → P (opened ++ opening)) {f g : Bool → TokenParser α}
    (htrue : Guarded opening.length Q (f true) (g true)) (hfalse : Guarded 0 P (f false) (g false)) :
    Guarded 0 P (accept t >>= f) (accept t >>= g) := by
  intro ts
  by_cases hhead : ts.head? = some t
  · obtain ⟨more, rfl⟩ := List.head?_eq_some_iff.mp hhead
    exact .cons opening ht hP (fun more => bind_of (accept_next t more) rfl) (fun more => bind_of (accept_next t more) rfl)
      (htrue more)
  · refine (hfalse ts).congr fun other hother => ?_
    have hne := head?_ne_of_alike hhead hother
    exact ⟨bind_of (accept_other hne) rfl, bind_of (accept_other hne) rfl⟩

/-- A token that opens a level for which there is no room. -/
theorem guarded_accept_limit {t : Token} (ht : t.opensLevel = true) (hP : P []) {f g : Bool → TokenParser α}
    (htrue : f true = fail .tooDeep) (hbefore : Wants (f false) []) (hbeyond : Wants (g true) [])
    (hfalse : Guarded 0 P (f false) (g false)) : Guarded 0 P (accept t >>= f) (accept t >>= g) := by
  intro ts
  have hstuck : ∀ more, (accept t >>= f) (t :: more) = .error ⟨.tooDeep, more⟩ := fun more =>
    bind_of (accept_next t more) (by rw [htrue]; rfl)
  by_cases hhead : ts.head? = some t
  · obtain ⟨more, rfl⟩ := List.head?_eq_some_iff.mp hhead
    refine ⟨fun h => ?_, fun hdeep => absurd (hstuck more) (hdeep more), fun {unread} h => ?_⟩
    · cases (hstuck more).symm.trans h
    · cases (hstuck more).symm.trans h
      refine ⟨[], t, [], rfl, fun _ => rfl, hP, ht, hstuck, ?_, ?_⟩
      · obtain ⟨cause, hcause, hwants⟩ := hbefore
        exact ⟨cause, hcause, bind_of (accept_other nofun) hwants⟩
      · obtain ⟨cause, hcause, hwants⟩ := hbeyond
        exact ⟨cause, hcause, bind_of (accept_next t []) hwants⟩
  · refine (hfalse ts).congr fun other hother => ?_
    have hne := head?_ne_of_alike hhead hother
    exact ⟨bind_of (accept_other hne) rfl, bind_of (accept_other hne) rfl⟩

variable {part part' : TokenParser α}

theorem guarded_manyUntil (hp : Guarded 0 P part part') (hread : Predictive part) (hread' : Predictive part')
    {fault fault' : Fault} (hnil : part [] = .error fault) (hnil' : part' [] = .error fault') {close : Token}
    (hclose : close.closes = true) : Guarded 1 P (manyUntil close part) (manyUntil close part') := by
  intro ts
  induction hlength : ts.length using Nat.strong_induction_on generalizing ts with
  | _ n ih =>
    by_cases hhead : ts.head? = some close
    · obtain ⟨more, rfl⟩ := List.head?_eq_some_iff.mp hhead
      exact .read [close] (manyUntil_close close part more) (manyUntil_close close part' more)
        (bracketStep_close hclose)
    · have hfirst : GuardedAt 1 P (part >>= fun a => (a :: ·) <$> manyUntil close part)
          (part' >>= fun a => (a :: ·) <$> manyUntil close part') ts := by
        refine .bind hp hread fun a rest hpart => ?_
        have hlt := (hread _).length_lt hnil hpart
        exact (ih rest.length (by omega) rest rfl).map _
      refine hfirst.congr fun other hother => ?_
      have hne := head?_ne_of_alike hhead hother
      exact ⟨manyUntil_eq hread hnil hne, manyUntil_eq hread' hnil' hne⟩

theorem guarded_block (hp : Guarded 0 Q part part') (hread : Predictive part) (hread' : Predictive part')
    {fault fault' : Fault} (hnil : part [] = .error fault) (hnil' : part' [] = .error fault') {openToken close : Token}
    (hopen : openToken.opens = true) (hclose : close.closes = true)
    (hP : ∀ opened, Q opened → P (opened ++ [openToken])) :
    Guarded 0 P (block openToken close part) (block openToken close part') := by
  refine guarded_accept_bind [openToken] (fun stack => by rw [bracketStep, if_pos hopen]; rfl) hP ?_ (.pure [])
  exact guarded_manyUntil hp hread hread' hnil hnil' hclose

theorem guarded_manyAfter (hp : Guarded 0 P part part') (hread : Predictive part) (hread' : Predictive part')
    {mark : Token} (hmark : ∀ stack, bracketStep stack mark = stack) :
    Guarded 0 P (manyAfter mark part) (manyAfter mark part') := by
  intro ts
  -- a part may take no token, but the mark before it does
  induction hlength : ts.length using Nat.strong_induction_on generalizing ts with
  | _ n ih =>
    by_cases hhead : ts.head? = some mark
    · obtain ⟨more, rfl⟩ := List.head?_eq_some_iff.mp hhead
      refine .pass hmark (manyAfter_mark hread mark) (manyAfter_mark hread' mark) ?_
      refine .bind hp hread fun a rest hpart => ?_
      have hle := (hread more).length_le hpart
      rw [List.length_cons] at hlength
      exact (ih rest.length (by omega) rest rfl).map _
    · exact .read [] (manyAfter_other hhead) (manyAfter_other hhead) fun _ => rfl

/-- An optional part that a token other than a bracket tells. -/
theorem guarded_accept {t : Token} (ht : ∀ stack, bracketStep stack t = stack) {f g : Bool → TokenParser α}
    (htrue : Guarded 0 P (f true) (g true)) (hfalse : Guarded 0 P (f false) (g false)) :
    Guarded 0 P (accept t >>= f) (accept t >>= g) :=
  guarded_accept_bind [] ht (fun opened h => by rwa [List.append_nil]) htrue hfalse

theorem guarded_separated (hp : Guarded 0 P part part') (hread : Predictive part) (hread' : Predictive part')
    {mark : Token} (hmark : ∀ stack, bracketStep stack mark = stack) (hcontinues : mark.continues = true) :
    Guarded 0 P (separated mark part) (separated mark part') := by
  have hparts : Guarded 0 P (do
      let first ← part
      let others ← manyAfter mark part
      pure (first :: others)) (do
      let first ← part'
      let others ← manyAfter mark part'
      pure (first :: others)) := by
    refine hp.bind hread fun first => ?_
    refine (guarded_manyAfter hp hread hread' hmark).bind (incremental_manyAfter hread hcontinues).predictive ?_
    exact fun others => .pure _
  exact guarded_accept hmark hparts hparts

end Parsers

end TokenParser

/-! ## The grammar -/

namespace Grammar

open TokenParser

variable {P : List Token → Prop}

theorem nullMark_guarded (type : TypeExpr) : Guarded 0 P (nullMark type) (nullMark type) :=
  guarded_accept (fun _ => rfl) (.pure _) (.pure _)

theorem typeLayer_end_guarded : Guarded 0 P (TypeExpr.named <$> TokenParser.name >>= nullMark)
    (TypeExpr.named <$> TokenParser.name >>= nullMark) :=
  (guarded_name.map _).bind (incremental_name.map _).predictive nullMark_guarded

theorem typeExpr_guarded (room : Nat) : Guarded 0 (Inner room) (typeExpr room) (typeExpr (room + 1)) := by
  induction room with
  | zero =>
    show Guarded 0 (Inner 0) (typeLayer none) (typeLayer (some (typeExpr 0)))
    refine guarded_accept_limit (t := .bracketOpen) rfl ?_ ?_ ?_ ?_ typeLayer_end_guarded
    · rfl
    · rfl
    · exact ⟨.expected .name, nofun, rfl⟩
    · exact ⟨.expected .name, nofun, rfl⟩
  | succ room ih =>
    show Guarded 0 (Inner (room + 1)) (typeLayer (some (typeExpr room))) (typeLayer (some (typeExpr (room + 1))))
    refine guarded_accept_bind [.bracketOpen] (fun _ => rfl) (fun _ h => Inner.level h rfl) ?_ typeLayer_end_guarded
    refine ih.bind (typeExpr_incremental room).predictive fun inner => ?_
    exact guarded_close_bind rfl (nullMark_guarded (.list inner))

theorem entry_guarded {α : Type} {part part' : TokenParser α} (hp : Guarded 0 P part part') (hread : Predictive part) :
    Guarded 0 P (entry part) (entry part') := by
  refine guarded_name.bind incremental_name.predictive fun key => ?_
  refine (guarded_expect fun _ => rfl).bind (predictive_expect .colon trivial) fun _ => ?_
  exact hp.bind hread fun value => .pure _

theorem plainValue_guarded : Guarded 0 P plainValue plainValue := by
  intro ts
  cases ts with
  | nil => exact .refuse rfl rfl nofun
  | cons t ts =>
    cases t with
    | int text => exact .read [.int text] rfl rfl fun _ => rfl
    | float text => exact .read [.float text] rfl rfl fun _ => rfl
    | string value => exact .read [.string value] rfl rfl fun _ => rfl
    | blockString value => exact .read [.blockString value] rfl rfl fun _ => rfl
    | name text => exact .read [.name text] rfl rfl fun _ => rfl
    | _ => exact .refuse rfl rfl nofun

theorem variable_guarded : Guarded 0 P (Value.var <$> TokenParser.name) (Value.var <$> TokenParser.name) :=
  guarded_name.map _

theorem value_nil (room : Nat) : value room [] = .error ⟨.expected .value, []⟩ := by
  obtain ⟨item, hlayer⟩ := value_layer room
  rw [hlayer]
  rfl

theorem value_guarded (room : Nat) : Guarded 0 (Inner room) (value room) (value (room + 1)) := by
  induction room with
  | zero =>
    show Guarded 0 (Inner 0) (valueLayer none) (valueLayer (some (value 0)))
    refine guarded_accept (fun _ => rfl) variable_guarded ?_
    -- without room, both brackets are one level too many, and nothing else is
    refine guarded_accept_limit (t := .bracketOpen) rfl ?_ ?_ ?_ ?_ ?_
    · rfl
    · rfl
    · exact ⟨.expected .value, nofun, rfl⟩
    · exact ⟨.expected .value, nofun, rfl⟩
    refine guarded_accept_limit (t := .braceOpen) rfl ?_ ?_ ?_ ?_ plainValue_guarded
    · rfl
    · rfl
    · exact ⟨.expected .value, nofun, rfl⟩
    · exact ⟨.expected .name, nofun, rfl⟩
  | succ room ih =>
    show Guarded 0 (Inner (room + 1)) (valueLayer (some (value room))) (valueLayer (some (value (room + 1))))
    have hread := (value_incremental room).predictive
    have hread' := (value_incremental (room + 1)).predictive
    refine guarded_accept (fun _ => rfl) variable_guarded ?_
    refine guarded_accept_bind [.bracketOpen] (fun _ => rfl) (fun _ h => Inner.level h rfl) ?_ ?_
    · exact (guarded_manyUntil ih hread hread' (value_nil room) (value_nil (room + 1)) rfl).map _
    refine guarded_accept_bind [.braceOpen] (fun _ => rfl) (fun _ h => Inner.level h rfl) ?_ plainValue_guarded
    have hentry := (entry_incremental (value_incremental room)).predictive
    have hentry' := (entry_incremental (value_incremental (room + 1))).predictive
    exact (guarded_manyUntil (entry_guarded ih hread) hentry hentry' rfl rfl rfl).map _

/-! Arguments stand in parentheses, so what they open counts alike inside and outside of a definition's body. -/

theorem directive_guarded (room : Nat) :
    Guarded 0 (fun opened => Inner room opened ∧ Outer room opened) (directive room) (directive (room + 1)) := by
  refine guarded_name.bind incremental_name.predictive fun name => ?_
  have hargument := entry_guarded (value_guarded room) (value_incremental room).predictive
  have hread := (entry_incremental (value_incremental room)).predictive
  have hread' := (entry_incremental (value_incremental (room + 1))).predictive
  refine (guarded_block hargument hread hread' rfl rfl rfl rfl fun _ => Inner.paren).bind ?_ fun arguments => .pure _
  exact (incremental_block hread rfl rfl .parenClose trivial rfl).predictive

theorem directives_guarded (room : Nat) :
    Guarded 0 (fun opened => Inner room opened ∧ Outer room opened) (directives room) (directives (room + 1)) :=
  guarded_manyAfter (directive_guarded room) (directive_incremental room).predictive
    (directive_incremental (room + 1)).predictive fun _ => rfl

theorem directives_guarded_inner (room : Nat) : Guarded 0 (Inner room) (directives room) (directives (room + 1)) :=
  (directives_guarded room).mono fun _ => And.left

theorem directives_guarded_outer (room : Nat) : Guarded 0 (Outer room) (directives room) (directives (room + 1)) :=
  (directives_guarded room).mono fun _ => And.right

theorem defaultValue_guarded (room : Nat) : Guarded 0 (Inner room) (defaultValue room) (defaultValue (room + 1)) :=
  guarded_accept (fun _ => rfl) ((value_guarded room).map _) (.pure none)

theorem inputValue_guarded (room : Nat) : Guarded 0 (Inner room) (inputValue room) (inputValue (room + 1)) := by
  refine guarded_string?.bind incremental_string?.predictive fun description => ?_
  refine guarded_name.bind incremental_name.predictive fun name => ?_
  refine (guarded_expect fun _ => rfl).bind (predictive_expect .colon trivial) fun _ => ?_
  refine (typeExpr_guarded room).bind (typeExpr_incremental room).predictive fun type => ?_
  refine (defaultValue_guarded room).bind (defaultValue_incremental room).predictive fun default => ?_
  exact (directives_guarded_inner room).bind (directives_incremental room).predictive fun directives => .pure _

theorem inputValues_guarded (room : Nat) {openToken close : Token} (hopen : openToken.opens = true)
    (hclose : close.closes = true) (hP : ∀ opened, Inner room opened → P (opened ++ [openToken])) :
    Guarded 0 P (inputValues room openToken close) (inputValues (room + 1) openToken close) :=
  guarded_block (inputValue_guarded room) (inputValue_incremental room).predictive
    (inputValue_incremental (room + 1)).predictive rfl rfl hopen hclose hP

theorem field_guarded (room : Nat) : Guarded 0 (Inner room) (field room) (field (room + 1)) := by
  refine guarded_string?.bind incremental_string?.predictive fun description => ?_
  refine guarded_name.bind incremental_name.predictive fun name => ?_
  refine (inputValues_guarded room rfl rfl fun _ h => (Inner.paren h).1).bind
    (inputValues_incremental room rfl .parenClose trivial rfl).predictive fun arguments => ?_
  refine (guarded_expect fun _ => rfl).bind (predictive_expect .colon trivial) fun _ => ?_
  refine (typeExpr_guarded room).bind (typeExpr_incremental room).predictive fun type => ?_
  exact (directives_guarded_inner room).bind (directives_incremental room).predictive fun directives => .pure _

theorem enumValue_guarded (room : Nat) : Guarded 0 (Inner room) (enumValue room) (enumValue (room + 1)) := by
  refine guarded_string?.bind incremental_string?.predictive fun description => ?_
  refine guarded_name.bind incremental_name.predictive fun name => ?_
  exact (directives_guarded_inner room).bind (directives_incremental room).predictive fun directives => .pure _

/-! Definitions are read outside of all brackets. -/

theorem schemaRoot_guarded (room : Nat) (description : Option String) :
    Guarded 0 (Outer room) (schemaRoot room description) (schemaRoot (room + 1) description) := by
  refine (directives_guarded_outer room).bind (directives_incremental room).predictive fun directives => ?_
  have hread := (entry_incremental incremental_name).predictive
  have hentry : Guarded 0 (Inner room) (entry TokenParser.name) (entry TokenParser.name) :=
    entry_guarded guarded_name incremental_name.predictive
  refine (guarded_block hentry hread hread rfl rfl rfl rfl fun _ => Inner.body).bind ?_ fun operations => .pure _
  exact (incremental_block hread rfl rfl .braceClose trivial rfl).predictive

theorem scalarType_guarded (room : Nat) (description : Option String) :
    Guarded 0 (Outer room) (scalarType room description) (scalarType (room + 1) description) := by
  refine guarded_name.bind incremental_name.predictive fun name => ?_
  exact (directives_guarded_outer room).bind (directives_incremental room).predictive fun directives => .pure _

theorem separated_name_guarded {mark : Token} (hmark : ∀ stack, bracketStep stack mark = stack)
    (hcontinues : mark.continues = true) :
    Guarded 0 P (separated mark TokenParser.name) (separated mark TokenParser.name) :=
  guarded_separated guarded_name incremental_name.predictive incremental_name.predictive hmark hcontinues

theorem fieldsType_guarded (room : Nat) (description : Option String) :
    Guarded 0 (Outer room) (fieldsType room description) (fieldsType (room + 1) description) := by
  have hread : Incremental interfaces :=
    incremental_accept rfl (incremental_separated incremental_name rfl).predictive (.pure [])
  have hinterfaces : Guarded 0 (Outer room) interfaces interfaces :=
    guarded_accept (fun _ => rfl) (separated_name_guarded (fun _ => rfl) rfl) (.pure [])
  refine guarded_name.bind incremental_name.predictive fun name => ?_
  refine hinterfaces.bind hread.predictive fun interfaces => ?_
  refine (directives_guarded_outer room).bind (directives_incremental room).predictive fun directives => ?_
  have hfield := (field_incremental room).predictive
  refine (guarded_block (field_guarded room) hfield (field_incremental (room + 1)).predictive rfl rfl rfl rfl
    fun _ => Inner.body).bind ?_ fun fields => .pure _
  exact (incremental_block hfield rfl rfl .braceClose trivial rfl).predictive

theorem unionType_guarded (room : Nat) (description : Option String) :
    Guarded 0 (Outer room) (unionType room description) (unionType (room + 1) description) := by
  have hread : Incremental members :=
    incremental_accept rfl (incremental_separated incremental_name rfl).predictive (.pure [])
  have hmembers : Guarded 0 (Outer room) members members :=
    guarded_accept (fun _ => rfl) (separated_name_guarded (fun _ => rfl) rfl) (.pure [])
  refine guarded_name.bind incremental_name.predictive fun name => ?_
  refine (directives_guarded_outer room).bind (directives_incremental room).predictive fun directives => ?_
  exact hmembers.bind hread.predictive fun members => .pure _

theorem enumType_guarded (room : Nat) (description : Option String) :
    Guarded 0 (Outer room) (enumType room description) (enumType (room + 1) description) := by
  refine guarded_name.bind incremental_name.predictive fun name => ?_
  refine (directives_guarded_outer room).bind (directives_incremental room).predictive fun directives => ?_
  have hvalue := (enumValue_incremental room).predictive
  refine (guarded_block (enumValue_guarded room) hvalue (enumValue_incremental (room + 1)).predictive rfl rfl rfl rfl
    fun _ => Inner.body).bind ?_ fun values => .pure _
  exact (incremental_block hvalue rfl rfl .braceClose trivial rfl).predictive

theorem inputType_guarded (room : Nat) (description : Option String) :
    Guarded 0 (Outer room) (inputType room description) (inputType (room + 1) description) := by
  refine guarded_name.bind incremental_name.predictive fun name => ?_
  refine (directives_guarded_outer room).bind (directives_incremental room).predictive fun directives => ?_
  refine (inputValues_guarded room rfl rfl fun _ => Inner.body).bind ?_ fun fields => .pure _
  exact (inputValues_incremental room rfl .braceClose trivial rfl).predictive

theorem directiveType_guarded (room : Nat) (description : Option String) :
    Guarded 0 (Outer room) (directiveType room description) (directiveType (room + 1) description) := by
  have hon : IsName "on".toList := by decide
  refine (guarded_expect fun _ => rfl).bind (predictive_expect .atSign trivial) fun _ => ?_
  refine guarded_name.bind incremental_name.predictive fun name => ?_
  refine (inputValues_guarded room rfl rfl fun _ h => (Inner.paren h).2).bind
    (inputValues_incremental room rfl .parenClose trivial rfl).predictive fun arguments => ?_
  have hlocations : ∀ repeatable, Guarded 0 (Outer room) (do
      expect (.name "on")
      let locations ← separated .pipe TokenParser.name
      pure ({ name, description, arguments, repeatable, locations } : DirectiveType)) (do
      expect (.name "on")
      let locations ← separated .pipe TokenParser.name
      pure ({ name, description, arguments, repeatable, locations } : DirectiveType)) := by
    intro repeatable
    refine (guarded_expect fun _ => rfl).bind (predictive_expect (.name "on") hon) fun _ => ?_
    refine (separated_name_guarded (fun _ => rfl) rfl).bind ?_ fun locations => .pure _
    exact (incremental_separated incremental_name rfl).predictive
  exact guarded_accept (fun _ => rfl) (hlocations true) (hlocations false)

theorem afterKeyword?_guarded (room : Nat) (keyword : String) (description : Option String) :
    (afterKeyword? room keyword description = none ∧ afterKeyword? (room + 1) keyword description = none) ∨
      ∃ p q, afterKeyword? room keyword description = some p ∧ afterKeyword? (room + 1) keyword description = some q ∧
        Guarded 0 (Outer room) p q := by
  unfold afterKeyword?
  split
  · exact Or.inr ⟨_, _, rfl, rfl, (schemaRoot_guarded room description).map _⟩
  · exact Or.inr ⟨_, _, rfl, rfl, (scalarType_guarded room description).map _⟩
  · exact Or.inr ⟨_, _, rfl, rfl, (fieldsType_guarded room description).map _⟩
  · exact Or.inr ⟨_, _, rfl, rfl, (fieldsType_guarded room description).map _⟩
  · exact Or.inr ⟨_, _, rfl, rfl, (unionType_guarded room description).map _⟩
  · exact Or.inr ⟨_, _, rfl, rfl, (enumType_guarded room description).map _⟩
  · exact Or.inr ⟨_, _, rfl, rfl, (inputType_guarded room description).map _⟩
  · exact Or.inr ⟨_, _, rfl, rfl, (directiveType_guarded room description).map _⟩
  · exact Or.inl ⟨rfl, rfl⟩

/-- A parser that goes on as a keyword tells. -/
theorem keyword_guarded {room : Nat} {keyword : String} {description : Option String} {p q : TokenParser Definition}
    (hp : ∀ more, p (.name keyword :: more) = typeSystemDefinition room description (.name keyword :: more))
    (hq : ∀ more, q (.name keyword :: more) = typeSystemDefinition (room + 1) description (.name keyword :: more))
    (ts : List Token) : GuardedAt 0 (Outer room) p q (.name keyword :: ts) := by
  have hstep : ∀ room more, typeSystemDefinition room description (.name keyword :: more) =
      (afterKeyword? room keyword description).elim (.error ⟨.expected .typeSystemDefinition, .name keyword :: more⟩)
        fun rest => rest more := by
    intro room more
    refine bind_of rfl ?_
    simp only [List.head?_cons, nameOf?, Option.bind_some]
    cases afterKeyword? room keyword description <;> rfl
  rcases afterKeyword?_guarded room keyword description with ⟨hnone, hnone'⟩ | ⟨rest, rest', hrest, hrest', hguarded⟩
  · have hstop : p (.name keyword :: ts) = .error ⟨.expected .typeSystemDefinition, .name keyword :: ts⟩ := by
      rw [hp, hstep, hnone, Option.elim_none]
    refine .refuse hstop ?_ fun hdeep => ?_
    · rw [hq, hstep, hnone', Option.elim_none]
    · cases hdeep
  · refine .pass (fun _ => rfl) (fun more => ?_) (fun more => ?_) (hguarded ts)
    · rw [hp, hstep, hrest, Option.elim_some]
    · rw [hq, hstep, hrest', Option.elim_some]

theorem typeSystemDefinition_guarded (room : Nat) (description : Option String) :
    Guarded 0 (Outer room) (typeSystemDefinition room description) (typeSystemDefinition (room + 1) description) := by
  intro ts
  cases ts with
  | nil => exact .refuse rfl rfl nofun
  | cons t ts =>
    cases t with
    | name keyword => exact keyword_guarded (fun _ => rfl) (fun _ => rfl) ts
    | _ => exact .refuse rfl rfl nofun

theorem undescribed_guarded (room : Nat) (description : Option String) :
    Guarded 0 (Outer room) (undescribed room description) (undescribed (room + 1) description) := by
  intro ts
  cases ts with
  | nil => exact .refuse rfl rfl nofun
  | cons t ts =>
    cases t with
    | name keyword =>
      have hnext : ∀ room more, undescribed room description (.name keyword :: more) =
          (if isExecutable (.name keyword) then fail .executable
          else if Token.name keyword = .name "extend" ∧ description = none then do
            skip
            Definition.extension <$> typeSystemDefinition room none
          else typeSystemDefinition room description) (.name keyword :: more) := fun _ _ => rfl
      split_ifs at hnext with hrun hextend
      · exact .refuse (hnext room ts) (hnext (room + 1) ts) nofun
      · exact .pass (fun _ => rfl) (hnext room) (hnext (room + 1)) ((typeSystemDefinition_guarded room none).map _ ts)
      · exact keyword_guarded (hnext room) (hnext (room + 1)) ts
    | _ => exact .refuse rfl rfl nofun

theorem definition_guarded (room : Nat) : Guarded 0 (Outer room) (definition room) (definition (room + 1)) :=
  guarded_string?.bind incremental_string?.predictive (undescribed_guarded room)

end Grammar

end SchemaModels
