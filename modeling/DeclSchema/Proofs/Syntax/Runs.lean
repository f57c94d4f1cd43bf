import DeclSchema.Syntax.Source

/-! # Runs of readers

What the small readers do to a state, and how the run of a composed reader is taken apart.
-/
namespace DeclSchema.Syntax
open Text

variable {α β : Type} {scope : Scope} {s t : State} {a : α} {b : β} {p q : Parser α}

theorem bind_run (p : Parser α) (f : α → Parser β) (scope : Scope) (s : State) :
    (p >>= f) scope s = (p scope s).bind fun r => f r.1 scope r.2 := rfl

theorem bind_eq_ok {f : α → Parser β} : (p >>= f) scope s = .ok (b, t) ↔
    ∃ a u, p scope s = .ok (a, u) ∧ f a scope u = .ok (b, t) := by
  rw [bind_run]
  cases p scope s with
  | error fault => simp [Except.bind]
  | ok r =>
    constructor
    · intro h
      exact ⟨r.1, r.2, rfl, h⟩
    · rintro ⟨a, u, hr, h⟩
      cases hr
      exact h

theorem map_eq_ok {f : α → β} : (f <$> p) scope s = .ok (b, t) ↔
    ∃ a, p scope s = .ok (a, t) ∧ b = f a := by
  show (p >>= fun a => pure (f a)) scope s = .ok (b, t) ↔ _
  rw [bind_eq_ok]
  constructor
  · rintro ⟨a, u, hp, h⟩
    cases h
    exact ⟨a, hp, rfl⟩
  · rintro ⟨a, hp, rfl⟩
    exact ⟨a, t, hp, rfl⟩

/-- What follows a reader runs where that reader ends. -/
theorem bind_of_ok {f : α → Parser β} (h : p scope s = .ok (a, t)) :
    (p >>= f) scope s = f a scope t := by
  rw [bind_run, h]
  rfl

theorem bind_of_error {f : α → Parser β} {fault : Fault} (h : p scope s = .error fault) :
    (p >>= f) scope s = .error fault := by
  rw [bind_run, h]
  rfl

theorem map_of_ok {f : α → β} (h : p scope s = .ok (a, t)) : (f <$> p) scope s = .ok (f a, t) :=
  bind_of_ok (f := fun a => pure (f a)) h

theorem discard_of_ok (h : p scope s = .ok (a, t)) : (discard p : Parser Unit) scope s = .ok ((), t) :=
  bind_of_ok (f := fun _ => pure ()) h

theorem map_of_error {f : α → β} {fault : Fault} (h : p scope s = .error fault) :
    (f <$> p) scope s = .error fault :=
  bind_of_error (f := fun a => pure (f a)) h

theorem discard_of_error {fault : Fault} (h : p scope s = .error fault) :
    (discard p : Parser Unit) scope s = .error fault :=
  bind_of_error (f := fun _ => pure ()) h

section Tokens
variable (scope) (s) (mark word : String) (kind : TokenKind)

theorem atMark_run : atMark mark scope s = .ok (s.token.isMark mark, s) := rfl

theorem atWord_run : atWord word scope s = .ok (s.token.isWord word, s) := rfl

variable {scope} {s} {mark word}

theorem Token.kind_of_isMark {token : Token} (h : token.isMark mark = true) : token.kind = .mark :=
  eq_of_beq ((Bool.and_eq_true _ _).mp h).1

theorem Token.kind_of_isWord {token : Token} (h : token.isWord word = true) : token.kind = .word :=
  eq_of_beq ((Bool.and_eq_true _ _).mp h).1

theorem Token.isWhole_of_kind {token : Token} {kind : TokenKind} (h : token.kind = kind)
    (hkind : kind ≠ .finish ∧ kind ≠ .brokenString := by decide) : token.isWhole = true := by
  subst h
  simpa [Token.isWhole] using hkind

theorem take_run (h : s.token.isWhole = true) : take scope s = .ok (s.token, s.next) := by
  rw [take, bind_of_ok (show (get : Parser State) scope s = .ok (s, s) from rfl), if_pos h]
  rfl

theorem discard_take_run (h : s.token.isWhole = true) : (discard take : Parser Unit) scope s = .ok ((), s.next) :=
  discard_of_ok (take_run h)

variable (scope s mark word)

theorem accept_run : accept mark scope s =
    .ok (s.token.isMark mark, if s.token.isMark mark then s.next else s) := by
  rw [accept, bind_of_ok (atMark_run scope s mark)]
  cases hmark : s.token.isMark mark with
  | true => exact bind_of_ok (discard_take_run (Token.isWhole_of_kind (Token.kind_of_isMark hmark)))
  | false => rfl

theorem acceptWord_run : acceptWord word scope s =
    .ok (s.token.isWord word, if s.token.isWord word then s.next else s) := by
  rw [acceptWord, bind_of_ok (atWord_run scope s word)]
  cases hword : s.token.isWord word with
  | true => exact bind_of_ok (discard_take_run (Token.isWhole_of_kind (Token.kind_of_isWord hword)))
  | false => rfl

end Tokens

section Following
variable {f : State → Parser β} {fScope : Scope → Parser β} {fToken : Token → Parser β}
  {fBool : Bool → Parser β} {fUnit : Unit → Parser β}

theorem get_bind : ((get : Parser State) >>= f) scope s = f s scope s := rfl

theorem read_bind : ((read : Parser Scope) >>= fScope) scope s = fScope scope scope s := rfl

theorem current_bind : (current >>= fToken) scope s = fToken s.token scope s := rfl

theorem following_bind : (following >>= fToken) scope s = fToken s.next.token scope s := rfl

theorem take_bind (h : s.token.isWhole = true) : (take >>= fToken) scope s = fToken s.token scope s.next :=
  bind_of_ok (take_run h)

theorem discard_take_bind (h : s.token.isWhole = true) :
    (discard take >>= fUnit) scope s = fUnit () scope s.next := bind_of_ok (discard_take_run h)

theorem atMark_bind {mark : String} :
    (atMark mark >>= fBool) scope s = fBool (s.token.isMark mark) scope s := rfl

theorem atWord_bind {word : String} :
    (atWord word >>= fBool) scope s = fBool (s.token.isWord word) scope s := rfl

theorem atKind_bind {kind : TokenKind} :
    (atKind kind >>= fBool) scope s = fBool (s.token.kind == kind) scope s := rfl

theorem atEnd_bind : (atEnd >>= fBool) scope s =
    fBool (s.token.isMark "\x7d" || s.token.kind == .finish) scope s := rfl

theorem endsHere_bind : (endsHere >>= fBool) scope s =
    fBool (scope.lineEnd != .never && s.endsBefore scope.lineEnd) scope s := rfl

theorem accept_bind {mark : String} : (accept mark >>= fBool) scope s =
    fBool (s.token.isMark mark) scope (if s.token.isMark mark then s.next else s) :=
  bind_of_ok (accept_run scope s mark)

theorem acceptWord_bind {word : String} : (acceptWord word >>= fBool) scope s =
    fBool (s.token.isWord word) scope (if s.token.isWord word then s.next else s) :=
  bind_of_ok (acceptWord_run scope s word)

theorem discard_accept_bind {mark : String} : (discard (accept mark) >>= fUnit) scope s =
    fUnit () scope (if s.token.isMark mark then s.next else s) :=
  bind_of_ok (discard_of_ok (accept_run scope s mark))

theorem textTo_bind {start : State} {fText : String → Parser β} :
    ((do return start.textTo (← get) : Parser String) >>= fText) scope s =
      fText (start.textTo s) scope s := rfl

theorem atSignature_bind : (atSignature >>= fBool) scope s =
    fBool (s.token.isMark "(" || s.token.isMark "<") scope s := rfl

end Following

theorem either_of_error {fault : Fault} {r : α × State} (hp : p scope s = .error fault)
    (hfault : fault.isExhausted = false) (hq : q scope s = .ok r) : either p q scope s = .ok r := by
  rw [either, hp]
  simp [hfault, hq]

theorem blaming_of_ok {q : Parser β} {r : α × State} (hp : p scope s = .ok r) :
    blaming p q scope s = .ok r := by
  rw [blaming, hp]

theorem optionally_of_ok (h : p scope s = .ok (a, t)) : optionally p scope s = .ok (some a, t) := by
  rw [optionally, either, map_of_ok h]

theorem optionally_of_error {fault : Fault} (h : p scope s = .error fault) (hfault : fault.isExhausted = false) :
    optionally p scope s = .ok (none, s) := by
  rw [optionally]
  exact either_of_error (map_of_error h) hfault rfl

theorem accept_or_accept {mark other : String} (h : s.token.isMark mark = false)
    (h' : s.token.isMark other = false) : (accept mark <||> accept other) scope s = .ok (false, s) := by
  unfold orM
  rw [accept_bind, h]
  show accept other scope s = .ok (false, s)
  rw [accept_run, h']
  rfl

theorem pure_run (a : α) : (pure a : Parser α) scope s = .ok (a, s) := rfl

theorem accept_of_isMark {mark : String} (h : s.token.isMark mark = true) :
    accept mark scope s = .ok (true, s.next) := by
  rw [accept_run, h]
  rfl

theorem accept_of_not_isMark {mark : String} (h : s.token.isMark mark = false) :
    accept mark scope s = .ok (false, s) := by
  rw [accept_run, h]
  rfl

theorem acceptWord_of_not_isWord {word : String} (h : s.token.isWord word = false) :
    acceptWord word scope s = .ok (false, s) := by
  rw [acceptWord_run, h]
  rfl

theorem missing_eq_error (what : String) : ∃ fault, (missing what : Parser α) scope s = .error fault ∧
    fault.isExhausted = false := by
  unfold missing
  rw [get_bind]
  split <;> exact ⟨_, rfl, rfl⟩

theorem stuck_eq_error : ∃ fault, (stuck : Parser α) scope s = .error fault := by
  unfold stuck
  rw [bind_of_ok (show (get : Parser State) scope s = .ok (s, s) from rfl)]
  split <;> exact ⟨_, rfl⟩

theorem exhausted_run : (exhausted : Parser α) scope s = .error (.exhausted s.offset) := rfl

theorem take_eq_ok {token : Token} (h : take scope s = .ok (token, t)) :
    s.token.isWhole = true ∧ token = s.token ∧ t = s.next := by
  cases hwhole : s.token.isWhole with
  | true =>
    rw [take_run hwhole] at h
    cases h
    exact ⟨rfl, rfl, rfl⟩
  | false =>
    obtain ⟨fault, hfault⟩ : ∃ fault, (stuck : Parser Token) scope s = .error fault := stuck_eq_error
    rw [take, get_bind, hwhole, if_neg Bool.false_ne_true, hfault] at h
    cases h

theorem of_take_bind {f : Token → Parser β} (h : (take >>= f) scope s = .ok (b, t)) :
    f s.token scope s.next = .ok (b, t) := by
  obtain ⟨token, u, htake, hrest⟩ := bind_eq_ok.mp h
  obtain ⟨-, rfl, rfl⟩ := take_eq_ok htake
  exact hrest

theorem of_discard_take_bind {f : Unit → Parser β} (h : (discard take >>= f) scope s = .ok (b, t)) :
    f () scope s.next = .ok (b, t) := by
  obtain ⟨_, u, hdiscard, hrest⟩ := bind_eq_ok.mp h
  obtain ⟨token, htake, -⟩ := map_eq_ok.mp hdiscard
  obtain ⟨-, -, rfl⟩ := take_eq_ok htake
  exact hrest

theorem expect_of_isMark {mark : String} (h : s.token.isMark mark = true) :
    expect mark scope s = .ok ((), s.next) := by
  rw [expect, bind_of_ok (accept_of_isMark h)]
  rfl

theorem expect_of_not_isMark {mark : String} (h : s.token.isMark mark = false) :
    ∃ fault, expect mark scope s = .error fault := by
  rw [expect, bind_of_ok (accept_of_not_isMark h)]
  obtain ⟨fault, hfault, -⟩ : ∃ fault, (missing mark : Parser Unit) scope s = .error fault ∧ _ := missing_eq_error mark
  exact ⟨fault, hfault⟩

theorem expect_eq_ok {mark : String} {a : Unit} (h : expect mark scope s = .ok (a, t)) :
    s.token.isMark mark = true ∧ t = s.next := by
  cases hmark : s.token.isMark mark with
  | true =>
    rw [expect_of_isMark hmark] at h
    cases h
    exact ⟨rfl, rfl⟩
  | false =>
    obtain ⟨fault, hfault⟩ : ∃ fault, expect mark scope s = .error fault := expect_of_not_isMark hmark
    rw [hfault] at h
    cases h

theorem expectWord_of_isWord {word : String} (h : s.token.isWord word = true) :
    expectWord word scope s = .ok ((), s.next) := by
  have haccept : acceptWord word scope s = .ok (true, s.next) := by
    rw [acceptWord_run, h]
    rfl
  rw [expectWord, bind_of_ok haccept]
  rfl

theorem expectWord_of_not_isWord {word : String} (h : s.token.isWord word = false) :
    ∃ fault, expectWord word scope s = .error fault := by
  rw [expectWord, acceptWord_bind, h]
  exact stuck_eq_error

theorem expectWord_eq_ok {word : String} {a : Unit} (h : expectWord word scope s = .ok (a, t)) :
    s.token.isWord word = true ∧ t = s.next := by
  rw [expectWord, acceptWord_bind] at h
  split at h
  · rename_i hword
    cases h
    exact ⟨hword, rfl⟩
  · obtain ⟨fault, hfault⟩ : ∃ fault, (stuck : Parser Unit) scope s = .error fault := stuck_eq_error
    rw [hfault] at h
    cases h

theorem anyWord_of_word (h : s.token.kind = .word) :
    anyWord scope s = .ok (String.ofList s.token.text, s.next) := by
  rw [anyWord, atKind_bind, if_pos (beq_iff_eq.mpr h), take_bind (Token.isWhole_of_kind h)]
  rfl

theorem anyWord_eq_ok {word : String} (h : anyWord scope s = .ok (word, t)) :
    s.token.kind = .word ∧ t = s.next := by
  rw [anyWord, atKind_bind] at h
  split at h
  · rename_i hkind
    rw [take_bind (Token.isWhole_of_kind (eq_of_beq hkind))] at h
    cases h
    exact ⟨eq_of_beq hkind, rfl⟩
  · obtain ⟨fault, hfault⟩ : ∃ fault, (stuck : Parser String) scope s = .error fault := stuck_eq_error
    rw [hfault] at h
    cases h

/-- A reader that gives these values one after another and then nothing more; each time
something is taken. -/
inductive Repeats (p : Parser (Option α)) (scope : Scope) : State → List α → State → Prop
  | done {s t : State} (h : p scope s = .ok (none, t)) : Repeats p scope s [] t
  | more {s t u : State} {a : α} {rest : List α} (h : p scope s = .ok (some a, t))
      (shorter : t.here.length < s.here.length) (hrest : Repeats p scope t rest u) :
      Repeats p scope s (a :: rest) u

theorem Repeats.many {p : Parser (Option α)} {all : List α} (h : Repeats p scope s all t) :
    many p scope s = .ok (all, t) := by
  have hupTo : ∀ n, s.here.length < n → manyUpTo p n scope s = .ok (all, t) := by
    induction h with
    | done hrun =>
      intro n hn
      obtain ⟨n, rfl⟩ : ∃ k, n = k + 1 := ⟨n - 1, by omega⟩
      rw [manyUpTo, bind_of_ok hrun]
      rfl
    | more hrun hshorter _ ih =>
      intro n hn
      obtain ⟨n, rfl⟩ : ∃ k, n = k + 1 := ⟨n - 1, by omega⟩
      rw [manyUpTo, bind_of_ok hrun]
      exact bind_of_ok (ih n (by omega))
  exact hupTo _ (Nat.lt_succ_self _)

/-- What holds where nothing more comes, and still holds with one more value in front, holds of all
values read. -/
theorem many_invariant {p : Parser (Option α)} {all : List α} {I : State → List α → State → Prop}
    (hdone : ∀ {s t}, p scope s = .ok (none, t) → I s [] t)
    (hmore : ∀ {s a u rest t}, p scope s = .ok (some a, u) → I u rest t → I s (a :: rest) t)
    (h : many p scope s = .ok (all, t)) : I s all t := by
  have hupTo : ∀ n s all, manyUpTo p n scope s = .ok (all, t) → I s all t := by
    intro n
    induction n with
    | zero =>
      intro s all hrun
      rw [manyUpTo, exhausted_run] at hrun
      cases hrun
    | succ n ih =>
      intro s all hrun
      rw [manyUpTo] at hrun
      obtain ⟨a, u, hone, hrest⟩ := bind_eq_ok.mp hrun
      cases a with
      | none =>
        cases hrest
        exact hdone hone
      | some a =>
        obtain ⟨rest, v, hmany, hpure⟩ := bind_eq_ok.mp hrest
        cases hpure
        exact hmore hone (ih u rest hmany)
  exact hupTo _ s all h

/-- What each step keeps holds of the value that is gone on to. -/
theorem extend_invariant {p : α → Parser (Option α)} {I : α → State → Prop} {b : α} (ha : I a s)
    (hstep : ∀ {a s b t}, I a s → p a scope s = .ok (some b, t) → I b t)
    (hdone : ∀ {a s t}, I a s → p a scope s = .ok (none, t) → I a t)
    (h : extend p a scope s = .ok (b, t)) : I b t := by
  have hupTo : ∀ n a s, I a s → extendUpTo p a n scope s = .ok (b, t) → I b t := by
    intro n
    induction n with
    | zero =>
      intro a s _ hrun
      rw [extendUpTo, exhausted_run] at hrun
      cases hrun
    | succ n ih =>
      intro a s ha hrun
      rw [extendUpTo] at hrun
      obtain ⟨c, u, hone, hrest⟩ := bind_eq_ok.mp hrun
      cases c with
      | none =>
        cases hrest
        exact hdone ha hone
      | some c => exact ih c u (hstep ha hone) hrest
  exact hupTo _ a s ha h

/-- From one value a reader goes on to another one; each time something is taken. -/
inductive Extends (p : α → Parser (Option α)) (scope : Scope) : α → State → α → State → Prop
  | refl (a : α) (s : State) : Extends p scope a s a s
  | step {a b c : α} {s t u : State} (h : Extends p scope a s b t) (hrun : p b scope t = .ok (some c, u))
      (shorter : u.here.length < t.here.length) : Extends p scope a s c u

/-- Where nothing follows any more, going on ends. -/
theorem Extends.extend {p : α → Parser (Option α)} {u : State} {a b : α} (h : Extends p scope a s b t)
    (hdone : p b scope t = .ok (none, u)) : extend p a scope s = .ok (b, u) := by
  have hback : ∀ result, (∀ n, t.here.length < n → extendUpTo p b n scope t = .ok result) →
      Syntax.extend p a scope s = .ok result := by
    intro result hresult
    clear hdone
    induction h with
    | refl => exact hresult _ (Nat.lt_succ_self _)
    | step _ hrun hshorter ih =>
      refine ih fun n hn => ?_
      obtain ⟨n, rfl⟩ : ∃ k, n = k + 1 := ⟨n - 1, by omega⟩
      rw [extendUpTo, bind_of_ok hrun]
      exact hresult n (by omega)
  refine hback _ fun n hn => ?_
  obtain ⟨n, rfl⟩ : ∃ k, n = k + 1 := ⟨n - 1, by omega⟩
  rw [extendUpTo, bind_of_ok hdone]
  rfl

end DeclSchema.Syntax
