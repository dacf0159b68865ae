import SchemaModels.Proofs.RoundTrip

/-! Predictive parsing. Every parser of the grammar decides by the next token alone. What it has read stays
read before every rest that starts with the same token or with one that continues nothing. Where it stops,
other tokens would have completed its part, and no rest that starts with the token found there does. -/

namespace SchemaModels
set_option autoImplicit false

/-! ## Rests that continue nothing -/

/-- Whether a token can continue a part that is complete without it. -/
def Token.continues : Token → Bool
  | braceOpen | parenOpen | bracketOpen | bang | equals | atSign | pipe | amp | dollar => true
  | name text => text = "implements" || text = "repeatable"
  | string _ | blockString _ => true
  | _ => false

def Settled (rest : List Token) : Prop :=
  ∀ t, rest.head? = some t → t.continues = false

theorem settled_nil : Settled [] := nofun

theorem settled_cons {t : Token} (h : t.continues = false) (rest : List Token) : Settled (t :: rest) := by
  intro u hu
  cases hu
  exact h

theorem Settled.append {more rest : List Token} (h : Settled more) (hrest : Settled rest) : Settled (more ++ rest) := by
  cases more with
  | nil => exact hrest
  | cons t more => exact settled_cons (h t rfl) _

theorem Settled.head_ne {rest : List Token} (h : Settled rest) {t : Token} (ht : t.continues = true) :
    rest.head? ≠ some t := by
  intro hhead
  have hno := h t hhead
  simp [ht] at hno

namespace TokenParser

/-- What is read before one of two rests is read before the other. -/
def Alike (rest other : List Token) : Prop :=
  other.head? = rest.head? ∨ Settled other

theorem Alike.append {rest other : List Token} (h : Alike rest other) (front : List Token) :
    Alike (front ++ rest) (front ++ other) := by
  cases front with
  | nil => exact h
  | cons t front => exact Or.inl rfl

theorem Alike.head_ne {rest other : List Token} (h : Alike rest other) {t : Token} (ht : t.continues = true)
    (hhead : rest.head? ≠ some t) : other.head? ≠ some t := by
  rcases h with hsame | hsettled
  · rwa [hsame]
  · exact hsettled.head_ne ht

/-! ## Predictive parsers -/

variable {α β : Type}

def Reads (p : TokenParser α) (ts : List Token) (a : α) (rest : List Token) : Prop :=
  ∃ front, ts = front ++ rest ∧ ∀ other, Alike rest other → p (front ++ other) = .ok (a, other)

def Completes (p : TokenParser α) (ts : List Token) : Prop :=
  ∃ a, ∀ rest, Settled rest → p (ts ++ rest) = .ok (a, rest)

/-- Some tokens that can be spelled complete what was read. -/
def Completable (p : TokenParser α) (front : List Token) : Prop :=
  ∃ more, (∀ t ∈ more, t.Canonical) ∧ Completes p (front ++ more)

/-- What comes before the unread tokens can be completed, but not with the next of them. -/
def Stops (p : TokenParser α) (ts unread : List Token) : Prop :=
  ∃ front, ts = front ++ unread ∧ Completable p front ∧
    ∀ t, unread.head? = some t → ∀ more, ∃ fault, p (front ++ t :: more) = .error fault

structure PredictiveAt (p : TokenParser α) (ts : List Token) : Prop where
  reads : ∀ {a : α} {rest : List Token}, p ts = .ok (a, rest) → Reads p ts a rest
  stops : ∀ {fault : Fault}, p ts = .error fault → fault.cause ≠ .tooDeep → Stops p ts fault.unread

def Predictive (p : TokenParser α) : Prop :=
  ∀ ts, PredictiveAt p ts

/-- Some tokens that continue nothing before them are read to the end. -/
def Startable (p : TokenParser α) : Prop :=
  ∃ more, Settled more ∧ (∀ t ∈ more, t.Canonical) ∧ Completes p more

structure Incremental (p : TokenParser α) : Prop where
  predictive : Predictive p
  startable : Startable p

theorem Startable.completable {p : TokenParser α} (h : Startable p) : Completable p [] := by
  obtain ⟨more, -, hmore, hdone⟩ := h
  exact ⟨more, hmore, hdone⟩

/-! ## The next token -/

namespace PredictiveAt

variable {p q : TokenParser α} {t : Token} {ts : List Token} {a : α}

theorem stay (h : ∀ other, Alike ts other → p other = .ok (a, other)) : PredictiveAt p ts where
  reads := by
    intro b rest hp
    cases (h ts (Or.inl rfl)).symm.trans hp
    exact ⟨[], rfl, h⟩
  stops := by
    intro fault hp
    cases (h ts (Or.inl rfl)).symm.trans hp

theorem refuse {cause : Cause} (hts : p ts = .error ⟨cause, ts⟩) (hdone : Completable p [])
    (h : ∀ t, ts.head? = some t → ∀ more, ∃ fault, p (t :: more) = .error fault) : PredictiveAt p ts where
  reads := by
    intro b rest hp
    cases hts.symm.trans hp
  stops := by
    intro fault hp _
    cases hts.symm.trans hp
    exact ⟨[], rfl, hdone, h⟩

theorem refuse_next (cause : Cause) (h : ∀ more, p (t :: more) = .error ⟨cause, t :: more⟩) (hdone : Completable p [])
    (ts : List Token) : PredictiveAt p (t :: ts) := by
  refine refuse (h ts) hdone fun u hu more => ?_
  cases hu
  exact ⟨_, h more⟩

theorem cons (hcons : ∀ more, p (t :: more) = q more) (h : PredictiveAt q ts) : PredictiveAt p (t :: ts) where
  reads := by
    intro b rest hp
    rw [hcons] at hp
    obtain ⟨front, rfl, hread⟩ := h.reads hp
    exact ⟨t :: front, rfl, fun other hother => (hcons _).trans (hread other hother)⟩
  stops := by
    intro fault hp hcause
    rw [hcons] at hp
    obtain ⟨front, rfl, ⟨more, hmore, b, hdone⟩, hstop⟩ := h.stops hp hcause
    refine ⟨t :: front, rfl, ⟨more, hmore, b, fun rest hrest => (hcons _).trans (hdone rest hrest)⟩, ?_⟩
    intro u hu more
    obtain ⟨fault, hfault⟩ := hstop u hu more
    exact ⟨fault, (hcons _).trans hfault⟩

theorem take (h : ∀ more, p (t :: more) = .ok (a, more)) (ts : List Token) : PredictiveAt p (t :: ts) :=
  cons (q := pure a) h (stay fun _ _ => rfl)

/-- A parser that goes on like a predictive one after the next token is predictive there too. -/
theorem congr (h : PredictiveAt p ts) (hsame : ∀ other, other.head? = ts.head? → q other = p other)
    (hempty : ∀ a, p ts = .ok (a, ts) → ∀ other, Settled other → q other = .ok (a, other))
    (hdone : Completable q []) : PredictiveAt q ts where
  reads := by
    intro a rest hq
    rw [hsame ts rfl] at hq
    obtain ⟨front, rfl, hread⟩ := h.reads hq
    refine ⟨front, rfl, fun other hother => ?_⟩
    cases front with
    | nil =>
      rcases hother with hhead | hsettled
      · exact (hsame _ hhead).trans (hread other (Or.inl hhead))
      · exact hempty a hq other hsettled
    | cons t front => exact (hsame (t :: (front ++ other)) rfl).trans (hread other hother)
  stops := by
    intro fault hq hcause
    rw [hsame ts rfl] at hq
    obtain ⟨front, rfl, hcomplete, hstop⟩ := h.stops hq hcause
    refine ⟨front, rfl, ?_, fun t ht more => ?_⟩
    · cases front with
      | nil => exact hdone
      | cons t front =>
        obtain ⟨more, hmore, a, hdone⟩ := hcomplete
        refine ⟨more, hmore, a, fun rest hrest => ?_⟩
        exact (hsame (t :: (front ++ more ++ rest)) rfl).trans (hdone rest hrest)
    · obtain ⟨fault, hfault⟩ := hstop t ht more
      refine ⟨fault, (hsame _ ?_).trans hfault⟩
      cases front with
      | nil => exact ht.symm
      | cons t front => rfl

/-- One part and then another. Where the second stops at once, the first needs a rest that continues nothing. -/
theorem bind {f : α → TokenParser β} (hp : PredictiveAt p ts)
    (hf : ∀ a rest, p ts = .ok (a, rest) → PredictiveAt (f a) rest) (hstart : ∀ a, Startable (f a)) :
    PredictiveAt (p >>= f) ts where
  reads := by
    intro b rest h
    rw [bind_apply] at h
    split at h
    · next a mid hmid =>
      obtain ⟨front, rfl, hread⟩ := hp.reads hmid
      obtain ⟨front', rfl, hread'⟩ := (hf a mid hmid).reads h
      refine ⟨front ++ front', (List.append_assoc ..).symm, fun other hother => ?_⟩
      rw [List.append_assoc]
      exact bind_of (hread _ (hother.append front')) (hread' other hother)
    · cases h
  stops := by
    intro fault h hcause
    rw [bind_apply] at h
    split at h
    · next a mid hmid =>
      obtain ⟨front, rfl, hread⟩ := hp.reads hmid
      obtain ⟨front', rfl, hcomplete, hstop⟩ := (hf a mid hmid).stops h hcause
      refine ⟨front ++ front', (List.append_assoc ..).symm, ?_, fun t ht more => ?_⟩
      · -- a second part that stops at once may want a token that the first one would take
        cases front' with
        | nil =>
          obtain ⟨more, hsettled, hmore, b, hdone⟩ := hstart a
          refine ⟨more, hmore, b, fun rest hrest => ?_⟩
          rw [List.append_nil, List.append_assoc]
          exact bind_of (hread _ (Or.inr (hsettled.append hrest))) (hdone rest hrest)
        | cons t front' =>
          obtain ⟨more, hmore, b, hdone⟩ := hcomplete
          refine ⟨more, hmore, b, fun rest hrest => ?_⟩
          rw [List.append_assoc, List.append_assoc, ← List.append_assoc (t :: front')]
          exact bind_of (hread _ (Or.inl rfl)) (hdone rest hrest)
      · obtain ⟨fault', hfault⟩ := hstop t ht more
        have hsame : Alike fault.unread (t :: more) := Or.inl ht.symm
        rw [List.append_assoc]
        exact ⟨fault', bind_of (hread _ (hsame.append front')) hfault⟩
    · next fault' hfault =>
      cases h
      obtain ⟨front, rfl, ⟨more, hmore, a, hdone⟩, hstop⟩ := hp.stops hfault hcause
      refine ⟨front, rfl, ?_, fun t ht more => ?_⟩
      · obtain ⟨more', hsettled, hmore', b, hdone'⟩ := hstart a
        refine ⟨more ++ more', List.forall_mem_append.mpr ⟨hmore, hmore'⟩, b, fun rest hrest => ?_⟩
        rw [← List.append_assoc, List.append_assoc]
        exact bind_of (hdone _ (hsettled.append hrest)) (hdone' rest hrest)
      · obtain ⟨fault', hfault'⟩ := hstop t ht more
        exact ⟨fault', by rw [bind_apply, hfault']⟩

end PredictiveAt

theorem Startable.pure (a : α) : Startable (pure a : TokenParser α) :=
  ⟨[], settled_nil, List.forall_mem_nil _, a, fun _ _ => rfl⟩

theorem Startable.bind {p : TokenParser α} {f : α → TokenParser β} (hp : Startable p)
    (hf : ∀ a, Startable (f a)) : Startable (p >>= f) := by
  obtain ⟨more, hsettled, hmore, a, hdone⟩ := hp
  obtain ⟨more', hsettled', hmore', b, hdone'⟩ := hf a
  refine ⟨more ++ more', hsettled.append hsettled', List.forall_mem_append.mpr ⟨hmore, hmore'⟩, b, ?_⟩
  intro rest hrest
  rw [List.append_assoc]
  exact bind_of (hdone _ (hsettled'.append hrest)) (hdone' rest hrest)

theorem PredictiveAt.map {p : TokenParser α} {ts : List Token} (hp : PredictiveAt p ts) (f : α → β) :
    PredictiveAt (f <$> p) ts :=
  hp.bind (fun _ _ _ => .stay fun _ _ => rfl) fun _ => .pure _

theorem Predictive.bind {p : TokenParser α} {f : α → TokenParser β} (hp : Predictive p)
    (hf : ∀ a, Incremental (f a)) : Predictive (p >>= f) :=
  fun ts => (hp ts).bind (fun a rest _ => (hf a).predictive rest) fun a => (hf a).startable

namespace Incremental

theorem bind {p : TokenParser α} {f : α → TokenParser β} (hp : Incremental p) (hf : ∀ a, Incremental (f a)) :
    Incremental (p >>= f) :=
  ⟨hp.predictive.bind hf, hp.startable.bind fun a => (hf a).startable⟩

theorem pure (a : α) : Incremental (pure a : TokenParser α) :=
  ⟨fun _ => .stay fun _ _ => rfl, .pure a⟩

theorem map {p : TokenParser α} (hp : Incremental p) (f : α → β) : Incremental (f <$> p) :=
  hp.bind fun a => pure (f a)

end Incremental

theorem Predictive.map {p : TokenParser α} (hp : Predictive p) (f : α → β) : Predictive (f <$> p) :=
  hp.bind fun a => .pure (f a)

theorem predictive_fail_tooDeep : Predictive (fail .tooDeep : TokenParser α) := by
  intro ts
  refine ⟨fun h => ?_, fun h hcause => ?_⟩
  · cases h
  · cases h
    exact absurd rfl hcause

/-! ## Single tokens -/

theorem predictive_expect (t : Token) (ht : t.Canonical) : Predictive (expect t) := by
  intro ts
  by_cases hhead : ts.head? = some t
  · obtain ⟨more, rfl⟩ := List.head?_eq_some_iff.mp hhead
    exact .take (expect_next t) more
  · refine .refuse (if_neg hhead) ⟨[t], by simpa using ht, (), fun rest _ => expect_next t rest⟩ ?_
    intro u hu more
    have hother : (u :: more).head? ≠ some t := by
      rwa [hu] at hhead
    exact ⟨_, if_neg hother⟩

theorem incremental_expect (t : Token) (ht : t.Canonical) (hc : t.continues = false) : Incremental (expect t) :=
  ⟨predictive_expect t ht, [t], settled_cons hc _, by simpa using ht, (), fun rest _ => expect_next t rest⟩

theorem Startable.cons {p q : TokenParser α} {t : Token} (ht : t.Canonical) (hc : t.continues = false)
    (hcons : ∀ more, p (t :: more) = q more) (hq : Completable q []) : Startable p := by
  obtain ⟨more, hmore, a, hdone⟩ := hq
  refine ⟨t :: more, settled_cons hc _, List.forall_mem_cons.mpr ⟨ht, hmore⟩, a, fun rest hrest => ?_⟩
  exact (hcons _).trans (hdone rest hrest)

theorem incremental_name : Incremental name := by
  have hx : IsName "x".toList := by decide
  have hstart : Startable name :=
    .cons (t := .name "x") hx (by decide) (fun _ => rfl) (Startable.pure "x").completable
  refine ⟨fun ts => ?_, hstart⟩
  cases ts with
  | nil => exact .refuse rfl hstart.completable nofun
  | cons t ts =>
    cases t with
    | name text => exact .take (fun _ => rfl) ts
    | _ => exact .refuse_next (.expected .name) (fun _ => rfl) hstart.completable ts

theorem string?_settled {rest : List Token} (h : Settled rest) : string? rest = .ok (none, rest) := by
  cases rest with
  | nil => rfl
  | cons t rest =>
    have ht := h t rfl
    cases t with
    | string value => cases ht
    | blockString value => cases ht
    | _ => rfl

theorem incremental_string? : Incremental string? := by
  refine ⟨fun ts => ?_, [], settled_nil, List.forall_mem_nil _, none, fun _ => string?_settled⟩
  cases ts with
  | nil =>
    refine .stay fun other hother => string?_settled ?_
    rcases hother with hhead | hsettled
    · rw [List.head?_eq_none_iff.mp hhead]
      exact settled_nil
    · exact hsettled
  | cons t ts =>
    cases ht : t.stringValue? with
    | some value => exact .take (a := some value) (fun more => by simp [string?, ht]) ts
    | none =>
      refine .stay (a := none) fun other hother => ?_
      rcases hother with hhead | hsettled
      · obtain ⟨more, rfl⟩ := List.head?_eq_some_iff.mp hhead
        simp [string?, ht]
      · exact string?_settled hsettled

/-- What a token decides by standing next. Only what is read without it has to be complete on its own. -/
theorem incremental_accept_bind {t : Token} (ht : t.continues = true) {f : Bool → TokenParser α}
    (htrue : Predictive (f true)) (hfalse : Incremental (f false)) : Incremental (accept t >>= f) := by
  have hother : ∀ {ts : List Token}, ts.head? ≠ some t → (accept t >>= f) ts = f false ts := fun hhead =>
    bind_of (accept_other hhead) rfl
  have hstart : Startable (accept t >>= f) := by
    obtain ⟨more, hsettled, hmore, a, hdone⟩ := hfalse.startable
    refine ⟨more, hsettled, hmore, a, fun rest hrest => ?_⟩
    rw [hother ((hsettled.append hrest).head_ne ht), hdone rest hrest]
  refine ⟨fun ts => ?_, hstart⟩
  by_cases hhead : ts.head? = some t
  · obtain ⟨more, rfl⟩ := List.head?_eq_some_iff.mp hhead
    exact .cons (fun more => bind_of (accept_next t more) rfl) (htrue more)
  · refine (hfalse.predictive ts).congr (fun other hsame => hother (hsame ▸ hhead)) ?_ hstart.completable
    intro a hempty other hsettled
    obtain ⟨front, hfront, hread⟩ := (hfalse.predictive ts).reads hempty
    have hnil : front = [] := by simpa using hfront
    subst hnil
    exact (hother (hsettled.head_ne ht)).trans (hread other (Or.inr hsettled))

/-- An optional part that its first token tells. -/
theorem incremental_accept {t : Token} (ht : t.continues = true) {yes no : TokenParser α} (hyes : Predictive yes)
    (hno : Incremental no) : Incremental (accept t >>= fun found => if found then yes else no) :=
  incremental_accept_bind ht hyes hno

/-! ## Repetition -/

/-- A part that needs some token takes one. -/
theorem PredictiveAt.length_lt {part : TokenParser α} {ts rest : List Token} (hp : PredictiveAt part ts)
    {fault : Fault} (hnil : part [] = .error fault) {a : α} (h : part ts = .ok (a, rest)) :
    rest.length < ts.length := by
  obtain ⟨front, rfl, hread⟩ := hp.reads h
  cases front with
  | nil => cases hnil.symm.trans (hread [] (Or.inr settled_nil))
  | cons t front =>
    simp only [List.length_append, List.length_cons]
    omega

theorem PredictiveAt.length_le {part : TokenParser α} {ts rest : List Token} (hp : PredictiveAt part ts) {a : α}
    (h : part ts = .ok (a, rest)) : rest.length ≤ ts.length := by
  obtain ⟨front, rfl, -⟩ := hp.reads h
  simp

section Repetition

variable {part : TokenParser α}

/-! Two bounds with room for every token make no difference. -/

theorem manyUntilFrom_congr (hp : Predictive part) {fault : Fault} (hnil : part [] = .error fault) (close : Token)
    {bound bound' ts : List Token} (hbound : ts.length ≤ bound.length) (hbound' : ts.length ≤ bound'.length) :
    manyUntilFrom close part bound ts = manyUntilFrom close part bound' ts := by
  induction bound generalizing bound' ts with
  | nil =>
    have hempty := List.length_eq_zero_iff.mp (Nat.le_zero.mp hbound)
    subst hempty
    unfold manyUntilFrom
    simp [hnil]
  | cons b bound ih =>
    cases hpart : part ts with
    | error fault =>
      unfold manyUntilFrom
      simp [hpart]
    | ok r =>
      have hlt := (hp ts).length_lt hnil hpart
      cases bound' with
      | nil =>
        simp only [List.length_nil] at hbound'
        omega
      | cons b' bound' =>
        simp only [List.length_cons] at hbound hbound'
        have hmore : manyUntilFrom close part bound r.2 = manyUntilFrom close part bound' r.2 :=
          ih (by omega) (by omega)
        unfold manyUntilFrom
        simp only [hpart, hmore]

theorem manyAfterFrom_congr (hp : Predictive part) (mark : Token) {bound bound' ts : List Token}
    (hbound : ts.length ≤ bound.length) (hbound' : ts.length ≤ bound'.length) :
    manyAfterFrom mark part bound ts = manyAfterFrom mark part bound' ts := by
  induction bound generalizing bound' ts with
  | nil =>
    have hempty := List.length_eq_zero_iff.mp (Nat.le_zero.mp hbound)
    subst hempty
    cases bound' <;> rfl
  | cons b bound ih =>
    cases ts with
    | nil => cases bound' <;> rfl
    | cons t ts =>
      cases bound' with
      | nil => cases hbound'
      | cons b' bound' =>
        simp only [List.length_cons] at hbound hbound'
        simp only [manyAfterFrom, List.tail_cons]
        split
        · cases hpart : part ts with
          | error fault => rfl
          | ok r =>
            have hle := (hp ts).length_le hpart
            have hmore : manyAfterFrom mark part bound r.2 = manyAfterFrom mark part bound' r.2 :=
              ih (by omega) (by omega)
            simp only [hmore]
        · rfl

theorem manyToEndFrom_congr (hp : Predictive part) {fault : Fault} (hnil : part [] = .error fault)
    {bound bound' ts : List Token} (hbound : ts.length ≤ bound.length) (hbound' : ts.length ≤ bound'.length) :
    manyToEndFrom part bound ts = manyToEndFrom part bound' ts := by
  induction bound generalizing bound' ts with
  | nil =>
    have hempty := List.length_eq_zero_iff.mp (Nat.le_zero.mp hbound)
    subst hempty
    cases bound' <;> rfl
  | cons b bound ih =>
    cases ts with
    | nil => cases bound' <;> rfl
    | cons t ts =>
      cases bound' with
      | nil => cases hbound'
      | cons b' bound' =>
        simp only [List.length_cons] at hbound hbound'
        simp only [manyToEndFrom]
        cases hpart : part (t :: ts) with
        | error fault => rfl
        | ok r =>
          have hlt := (hp _).length_lt hnil hpart
          rw [List.length_cons] at hlt
          have hmore : manyToEndFrom part bound r.2 = manyToEndFrom part bound' r.2 := ih (by omega) (by omega)
          simp only [hmore]

/-! Each repetition is its first part and then itself. -/

theorem manyUntil_eq (hp : Predictive part) {fault : Fault} (hnil : part [] = .error fault) {close : Token}
    {ts : List Token} (hhead : ts.head? ≠ some close) :
    manyUntil close part ts = (part >>= fun a => (a :: ·) <$> manyUntil close part) ts := by
  rw [bind_apply]
  cases hpart : part ts with
  | error fault =>
    unfold manyUntil manyUntilFrom
    simp [hhead, hpart]
  | ok r =>
    have hlt := (hp _).length_lt hnil hpart
    cases ts with
    | nil => cases hnil.symm.trans hpart
    | cons t ts =>
      have hlast : r.2.length ≤ ts.length := Nat.le_of_lt_succ hlt
      have hbound : manyUntilFrom close part ts r.2 = manyUntil close part r.2 :=
        manyUntilFrom_congr hp hnil close hlast (Nat.le_refl _)
      rw [manyUntil, manyUntilFrom, if_neg hhead]
      simp only [hpart, hbound, map_apply]
      cases manyUntil close part r.2 <;> rfl

theorem manyUntil_close (close : Token) (part : TokenParser α) (rest : List Token) :
    manyUntil close part (close :: rest) = .ok ([], rest) := by
  unfold manyUntil manyUntilFrom
  simp

theorem incremental_manyUntil (hp : Predictive part) {fault : Fault} (hnil : part [] = .error fault) (close : Token)
    (hclose : close.Canonical) (hc : close.continues = false) : Incremental (manyUntil close part) := by
  have hstart : Startable (manyUntil close part) :=
    ⟨[close], settled_cons hc _, by simpa using hclose, [], fun rest _ => manyUntil_close close part rest⟩
  refine ⟨fun ts => ?_, hstart⟩
  induction hlength : ts.length using Nat.strong_induction_on generalizing ts with
  | _ n ih =>
    by_cases hhead : ts.head? = some close
    · obtain ⟨more, rfl⟩ := List.head?_eq_some_iff.mp hhead
      exact .take (manyUntil_close close part) more
    · have hfirst : PredictiveAt (part >>= fun a => (a :: ·) <$> manyUntil close part) ts := by
        refine (hp ts).bind (fun a rest hpart => ?_) fun a => hstart.bind fun as => .pure _
        have hlt := (hp _).length_lt hnil hpart
        exact (ih rest.length (by omega) rest rfl).map _
      refine hfirst.congr (fun other hsame => manyUntil_eq hp hnil (hsame ▸ hhead)) ?_ hstart.completable
      -- the first part takes a token, so nothing is read as nothing here
      intro as hempty
      have hnone : (part >>= fun a => (a :: ·) <$> manyUntil close part) [] = .error fault := by
        rw [bind_apply, hnil]
      exact absurd (hfirst.length_lt hnone hempty) (Nat.lt_irrefl _)

theorem incremental_block (hp : Predictive part) {fault : Fault} (hnil : part [] = .error fault)
    {openToken : Token} (ho : openToken.continues = true) (close : Token) (hclose : close.Canonical)
    (hc : close.continues = false) : Incremental (block openToken close part) :=
  incremental_accept ho (incremental_manyUntil hp hnil close hclose hc).predictive (.pure [])

theorem manyAfter_mark (hp : Predictive part) (mark : Token) (ts : List Token) :
    manyAfter mark part (mark :: ts) = (part >>= fun a => (a :: ·) <$> manyAfter mark part) ts := by
  rw [bind_apply, manyAfter, manyAfterFrom, List.head?_cons, if_pos rfl, List.tail_cons]
  cases hpart : part ts with
  | error fault => rfl
  | ok r =>
    have hbound : manyAfterFrom mark part ts r.2 = manyAfter mark part r.2 :=
      manyAfterFrom_congr hp mark ((hp ts).length_le hpart) (Nat.le_refl _)
    simp only [hbound, map_apply]
    cases manyAfter mark part r.2 <;> rfl

theorem manyAfter_other {mark : Token} {ts : List Token} (hhead : ts.head? ≠ some mark) :
    manyAfter mark part ts = .ok ([], ts) := by
  cases ts with
  | nil => rfl
  | cons t ts => rw [manyAfter, manyAfterFrom, if_neg hhead]

theorem incremental_manyAfter (hp : Predictive part) {mark : Token} (hmark : mark.continues = true) :
    Incremental (manyAfter mark part) := by
  have hstart : Startable (manyAfter mark part) :=
    ⟨[], settled_nil, List.forall_mem_nil _, [], fun _ hrest => manyAfter_other (hrest.head_ne hmark)⟩
  refine ⟨fun ts => ?_, hstart⟩
  induction hlength : ts.length using Nat.strong_induction_on generalizing ts with
  | _ n ih =>
    by_cases hhead : ts.head? = some mark
    · obtain ⟨more, rfl⟩ := List.head?_eq_some_iff.mp hhead
      refine .cons (manyAfter_mark hp mark) ?_
      refine (hp more).bind (fun a rest hpart => ?_) fun a => hstart.bind fun as => .pure _
      have hle := (hp more).length_le hpart
      rw [List.length_cons] at hlength
      exact (ih rest.length (by omega) rest rfl).map _
    · exact .stay fun other hother => manyAfter_other (hother.head_ne hmark hhead)

theorem incremental_separated (hp : Incremental part) {mark : Token} (hmark : mark.continues = true) :
    Incremental (separated mark part) := by
  have hparts : Incremental (do
      let first ← part
      let others ← manyAfter mark part
      pure (first :: others)) :=
    hp.bind fun first => (incremental_manyAfter hp.predictive hmark).bind fun others => .pure _
  exact incremental_accept_bind hmark hparts.predictive hparts

theorem manyToEnd_fault {fault : Fault} {ts : List Token} (h : part ts = .error fault) (hne : ts ≠ []) :
    manyToEnd part ts = .error fault := by
  cases ts with
  | nil => exact absurd rfl hne
  | cons t ts => simp only [manyToEnd, manyToEndFrom, h]

theorem manyToEnd_part (hp : Predictive part) {fault : Fault} (hnil : part [] = .error fault) {ts rest : List Token}
    {a : α} (h : part ts = .ok (a, rest)) : manyToEnd part ts = (manyToEnd part rest).map (a :: ·) := by
  cases ts with
  | nil => cases hnil.symm.trans h
  | cons t ts =>
    have hlast : rest.length ≤ ts.length := Nat.le_of_lt_succ ((hp _).length_lt hnil h)
    have hbound : manyToEndFrom part ts rest = manyToEnd part rest :=
      manyToEndFrom_congr hp hnil hlast (Nat.le_refl _)
    rw [manyToEnd, manyToEndFrom]
    simp only [h, hbound]
    cases manyToEnd part rest <;> rfl

/-- What comes before the unread tokens can be completed up to the end, but not with the next of them. -/
def EndStops (part : TokenParser α) (ts unread : List Token) : Prop :=
  ∃ front, ts = front ++ unread ∧
    (∃ more, (∀ t ∈ more, t.Canonical) ∧ ∃ as, manyToEnd part (front ++ more) = .ok as) ∧
    ∀ t, unread.head? = some t → ∀ more, ∃ fault, manyToEnd part (front ++ t :: more) = .error fault

theorem Stops.toEnd (hp : Predictive part) {fault : Fault} (hnil : part [] = .error fault) {ts unread : List Token}
    (h : Stops part ts unread) : EndStops part ts unread := by
  obtain ⟨front, hfront, hcomplete, hstop⟩ := h
  refine ⟨front, hfront, ?_, fun t ht more => ?_⟩
  · cases front with
    | nil => exact ⟨[], List.forall_mem_nil _, [], rfl⟩
    | cons t front =>
      obtain ⟨more, hmore, a, hdone⟩ := hcomplete
      have hread := hdone [] settled_nil
      rw [List.append_nil] at hread
      refine ⟨more, hmore, [a], ?_⟩
      rw [manyToEnd_part hp hnil hread]
      rfl
  · obtain ⟨fault, hfault⟩ := hstop t ht more
    exact ⟨fault, manyToEnd_fault hfault (by simp)⟩

theorem EndStops.cons (hp : Predictive part) {fault : Fault} (hnil : part [] = .error fault)
    {ts rest unread : List Token} {a : α} (hread : Reads part ts a rest) (h : EndStops part rest unread) :
    EndStops part ts unread := by
  obtain ⟨front, rfl, hread⟩ := hread
  have hstep : ∀ other, Alike rest other →
      manyToEnd part (front ++ other) = (manyToEnd part other).map (a :: ·) := fun other hother =>
    manyToEnd_part hp hnil (hread other hother)
  obtain ⟨front', rfl, hcomplete, hstop⟩ := h
  refine ⟨front ++ front', (List.append_assoc ..).symm, ?_, fun t ht more => ?_⟩
  · cases front' with
    | nil =>
      refine ⟨[], List.forall_mem_nil _, [a], ?_⟩
      rw [List.append_nil, hstep [] (Or.inr settled_nil)]
      rfl
    | cons t front' =>
      obtain ⟨more, hmore, as, hdone⟩ := hcomplete
      have hsame : Alike (t :: front' ++ unread) (t :: front' ++ more) := Or.inl rfl
      refine ⟨more, hmore, a :: as, ?_⟩
      rw [List.append_assoc, hstep _ hsame, hdone]
      rfl
  · obtain ⟨fault, hfault⟩ := hstop t ht more
    have hsame : Alike unread (t :: more) := Or.inl ht.symm
    refine ⟨fault, ?_⟩
    rw [List.append_assoc, hstep _ (hsame.append front'), hfault]
    rfl

/-- Parts up to the end stop at the first token that no further tokens make right. -/
theorem manyToEnd_stops (hp : Predictive part) {fault : Fault} (hnil : part [] = .error fault) {ts : List Token}
    {fault' : Fault} (h : manyToEnd part ts = .error fault') (hcause : fault'.cause ≠ .tooDeep) :
    EndStops part ts fault'.unread := by
  induction hlength : ts.length using Nat.strong_induction_on generalizing ts with
  | _ n ih =>
    cases hpart : part ts with
    | ok r =>
      have hlt := (hp ts).length_lt hnil hpart
      rw [manyToEnd_part hp hnil hpart] at h
      cases hrest : manyToEnd part r.2 with
      | ok as =>
        rw [hrest] at h
        cases h
      | error fault =>
        rw [hrest] at h
        cases h
        exact .cons hp hnil ((hp ts).reads hpart) (ih _ (by omega) hrest rfl)
    | error fault =>
      have hne : ts ≠ [] := by
        rintro rfl
        cases h
      rw [manyToEnd_fault hpart hne] at h
      cases h
      exact ((hp ts).stops hpart hcause).toEnd hp hnil

end Repetition

end TokenParser

end SchemaModels
