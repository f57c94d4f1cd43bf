import DeclSchema.Proofs.Nesting.Alike

/-! # Looking at tokens and taking them

What a reader sees of a token in a body it sees of the token of the source alone, unless it looks for
the closing brace or for the end of the source.
-/
namespace DeclSchema.Syntax
open Text

variable {α β γ δ : Type} {b : Body}

class Inner (mark : String) : Prop where
  ne : mark ≠ "\x7d"

instance : Inner "(" := ⟨by decide⟩

instance : Inner ")" := ⟨by decide⟩

instance : Inner "[" := ⟨by decide⟩

instance : Inner "]" := ⟨by decide⟩

instance : Inner "\x7b" := ⟨by decide⟩

instance : Inner "<" := ⟨by decide⟩

instance : Inner ">" := ⟨by decide⟩

instance : Inner ";" := ⟨by decide⟩

instance : Inner "," := ⟨by decide⟩

instance : Inner ":" := ⟨by decide⟩

instance : Inner "." := ⟨by decide⟩

instance : Inner "?." := ⟨by decide⟩

instance : Inner "..." := ⟨by decide⟩

instance : Inner "?" := ⟨by decide⟩

instance : Inner "??" := ⟨by decide⟩

instance : Inner "=" := ⟨by decide⟩

instance : Inner "=>" := ⟨by decide⟩

instance : Inner "+" := ⟨by decide⟩

instance : Inner "-" := ⟨by decide⟩

instance : Inner "++" := ⟨by decide⟩

instance : Inner "--" := ⟨by decide⟩

instance : Inner "*" := ⟨by decide⟩

instance : Inner "/" := ⟨by decide⟩

instance : Inner "!" := ⟨by decide⟩

instance : Inner "~" := ⟨by decide⟩

instance : Inner "@" := ⟨by decide⟩

instance : Inner "&" := ⟨by decide⟩

instance : Inner "|" := ⟨by decide⟩

/-- A mark that stands in no quiet text. -/
class Loud (mark : String) : Prop where
  ne : ∀ c ∈ quietMarks, mark.toList ≠ [c]

instance : Loud "=>" := ⟨by decide⟩

instance : Loud ":" := ⟨by decide⟩

instance : Loud ">" := ⟨by decide⟩

instance : Loud "=" := ⟨by decide⟩

class InnerKind (kind : TokenKind) : Prop where
  ne : kind ≠ .mark ∧ kind ≠ .finish

instance : InnerKind .word := ⟨by decide⟩

instance : InnerKind .privateName := ⟨by decide⟩

instance : InnerKind .number := ⟨by decide⟩

instance : InnerKind .string := ⟨by decide⟩

instance : InnerKind .template := ⟨by decide⟩

section Same
variable (x y : b.Places)

instance (priority := low) (a : α) : Same a a := ⟨rfl⟩

instance (priority := low) {a a' : α} {f : α → β} [h : Same a a'] : Same (f a) (f a') := ⟨by rw [h.eq]⟩

instance (priority := low) {a a' : α} {c c' : β} {f : α → β → γ} [h : Same a a'] [hc : Same c c'] :
    Same (f a c) (f a' c') := ⟨by rw [h.eq, hc.eq]⟩

instance (priority := low) {a a' : α} {c c' : β} {d d' : γ} {f : α → β → γ → δ} [h : Same a a'] [hc : Same c c']
    [hd : Same d d'] : Same (f a c d) (f a' c' d') := ⟨by rw [h.eq, hc.eq, hd.eq]⟩

instance {c c' d d' : Bool} [hc : Same c c'] [hd : Same d d'] : Same (c && d) (c' && d') := ⟨by rw [hc.eq, hd.eq]⟩

instance {c c' d d' : Bool} [hc : Same c c'] [hd : Same d d'] : Same (c || d) (c' || d') := ⟨by rw [hc.eq, hd.eq]⟩

instance {c c' : Bool} [hc : Same c c'] : Same (!c) (!c') := ⟨by rw [hc.eq]⟩

instance {f : β → Bool} {f' : β → Bool} : Same (([] : List β).any f) (([] : List β).any f') := ⟨rfl⟩

instance {c : β} {xs : List β} {f f' : β → Bool} [h : Same (f c) (f' c)] [hxs : Same (xs.any f) (xs.any f')] :
    Same ((c :: xs).any f) ((c :: xs).any f') := ⟨by rw [List.any_cons, List.any_cons, h.eq, hxs.eq]⟩

section Token
variable {token other : Token} [h : token.Beside other]

instance (mark : String) [hmark : Inner mark] : Same (token.isMark mark) (other.isMark mark) := ⟨h.isMark hmark.ne⟩

instance (word : String) : Same (token.isWord word) (other.isWord word) := ⟨h.isWord word⟩

instance (words : List String) : Same (token.isOneOf words) (other.isOneOf words) := ⟨h.isOneOf words⟩

instance (kind : TokenKind) [hkind : InnerKind kind] : Same (token.kind == kind) (other.kind == kind) :=
  ⟨h.kind hkind.ne.1 hkind.ne.2⟩

instance (kind : TokenKind) [InnerKind kind] : Same (token.kind != kind) (other.kind != kind) :=
  inferInstanceAs (Same (!(token.kind == kind)) (!(other.kind == kind)))

instance : Same token.startsName other.startsName := ⟨h.startsName⟩

instance : Same token.startsType other.startsType := ⟨h.startsType⟩

instance : Same token.startsOperand other.startsOperand := ⟨h.startsOperand⟩

end Token

instance (lineEnd : LineEnd) : Same (x.alone.endsBefore lineEnd) (x.nested.endsBefore lineEnd) :=
  ⟨x.endsBefore_nested lineEnd⟩

instance : Same (isFreeze x.alone y.alone) (isFreeze x.nested y.nested) :=
  ⟨by rw [isFreeze, isFreeze, x.stop_sub_offset y, x.textTo_nested y]⟩

instance : Same (x.alone.textTo y.alone) (x.nested.textTo y.nested) := ⟨x.textTo_nested y⟩

end Same

section Looks
variable {x : b.Places}

instance {a a' : α} [h : Same a a'] : Alike b (pure a) (pure a') := by
  rw [h.eq]
  infer_instance

theorem Alike.cond {c c' : Bool} [h : Same c c'] {p p' q q' : Parser α} (hp : Alike b p p') (hq : Alike b q q') :
    Alike b (if c then p else q) (if c' then p' else q') := by
  rw [h.eq]
  split
  · exact hp
  · exact hq

instance {c c' : Bool} [Same c c'] {p p' q q' : Parser α} [hp : Alike b p p'] [hq : Alike b q q'] :
    Alike b (if c then p else q) (if c' then p' else q') := .cond hp hq

theorem Alike.ite_step {c : Bool} {p p' : Parser α} {rest rest' : Parser β} [Alike b p p']
    (h : Alike b rest rest') : Alike b (if c then p >>= fun _ => rest else rest) (if c then p' >>= fun _ => rest' else rest') :=
  .cond (.then fun _ => h) h

-- As for steady readers, nothing depends on a value that is only tested or dropped.
instance (priority := high) {p p' : Parser α} {q q' : Parser β} [Alike b p p'] [hq : Alike b q q'] :
    Alike b (p >>= fun _ => q) (p' >>= fun _ => q') := .then fun _ => hq

instance (priority := high) {c c' : α → Bool} {p p' : Parser α} {q q' r r' : Parser β} [Alike b p p']
    [∀ a, Same (c a) (c' a)] [Alike b q q'] [Alike b r r'] :
    Alike b (p >>= fun a => if c a then q else r) (p' >>= fun a => if c' a then q' else r') :=
  .then fun _ => inferInstance

instance (priority := high) {c c' : α → β → Bool} {p p' : Parser α} {q q' : Parser β} {r r' t t' : Parser γ}
    [Alike b p p'] [Alike b q q'] [∀ a d, Same (c a d) (c' a d)] [Alike b r r'] [Alike b t t'] :
    Alike b (p >>= fun a => q >>= fun d => if c a d then r else t)
      (p' >>= fun a => q' >>= fun d => if c' a d then r' else t') :=
  .then fun _ => .then fun _ => inferInstance

instance (priority := high) {c c' : α → Bool} {p p' : Parser α} {q q' : Parser β} {rest rest' : Parser γ}
    [Alike b p p'] [∀ a, Same (c a) (c' a)] [Alike b q q'] [Alike b rest rest'] :
    Alike b (p >>= fun a => if c a then q >>= fun _ => rest else rest)
      (p' >>= fun a => if c' a then q' >>= fun _ => rest' else rest') :=
  .then fun _ => inferInstance

instance {f f' : State → Parser α} [Quietly (get >>= f')]
    [h : ∀ x : b.Places, Alike b (f x.alone) (f' x.nested)] : Alike b (get >>= f) (get >>= f') :=
  .of_at fun x => .get_bind ((h x).at_places x)

instance {f f' : Token → Parser α} [Quietly (current >>= f')]
    [h : ∀ x : b.Places, Alike b (f x.alone.token) (f' x.nested.token)] : Alike b (current >>= f) (current >>= f') :=
  .of_at fun x => .current_bind ((h x).at_places x)

instance (priority := high) {c c' : Token → Bool} {p p' : Parser α} {rest rest' : Parser β} [hp : Alike b p p']
    [∀ x : b.Places, Same (c x.alone.token) (c' x.nested.token)] [hrest : Alike b rest rest'] :
    Alike b (current >>= fun token => if c token then p >>= fun _ => rest else rest)
      (current >>= fun token => if c' token then p' >>= fun _ => rest' else rest') :=
  have := hp.quietly
  have := hrest.quietly
  .of_at fun _ => .current_bind .of_alike

instance : Alike b (read : Parser Scope) read :=
  .of_at fun x => ⟨fun scope _ hfound => .both scope x.beside hfound⟩

instance : Alike b endsHere endsHere := by
  unfold endsHere
  infer_instance

instance {mark : String} [Inner mark] : Alike b (atMark mark) (atMark mark) := by
  unfold atMark
  infer_instance

instance (word : String) : Alike b (atWord word) (atWord word) := by
  unfold atWord
  infer_instance

instance {kind : TokenKind} [InnerKind kind] : Alike b (atKind kind) (atKind kind) := by
  unfold atKind
  infer_instance

instance {p p' q q' : Parser Bool} [Alike b p p'] [hq : Alike b q q'] : Alike b (p <||> q) (p' <||> q') := by
  unfold orM
  refine .then fun c => ?_
  cases c with
  | true => exact inferInstanceAs (Alike b (pure true) (pure true))
  | false => exact hq

/-- The second test counts only where the first one succeeds. -/
theorem Same.and {c c' d d' : Bool} (hc : c' = c) (hd : c = true → d' = d) : (c' && d') = (c && d) := by
  subst hc
  cases c' with
  | true => rw [hd rfl]
  | false => rfl

instance Sure.cond {c c' : Bool} [h : Same c c'] {p p' q q' : Parser α} [hp : Sure b p p'] [hq : Sure b q q'] :
    Sure b (if c then p else q) (if c' then p' else q') := by
  rw [h.eq]
  split
  · exact hp
  · exact hq

instance (priority := high) {c c' : α → Bool} {p p' : Parser α} {q q' r r' : Parser β} [Alike b p p']
    [∀ a, Same (c a) (c' a)] [Fails q'] [Fails r'] [Sure b q q'] [Sure b r r'] :
    Sure b (p >>= fun a => if c a then q else r) (p' >>= fun a => if c' a then q' else r') :=
  @Sure.bind_fails _ _ _ _ _ _ _ _ (fun _ => inferInstance) fun _ => inferInstance

theorem AlikeAt.cond {c c' : Bool} (h : Same c c') {p p' q q' : Parser α} (hp : AlikeAt x p p') (hq : AlikeAt x q q') :
    AlikeAt x (if c then p else q) (if c' then p' else q') := by
  rw [h.eq]
  exact .ite (fun _ => hp) fun _ => hq

end Looks

section Steps
variable {x : b.Places}

instance : Alike b take take := by
  refine .of_at fun x => ?_
  cases hwhole : x.alone.token.isWhole with
  | true =>
    refine ⟨fun scope before hfound => ?_⟩
    have heq := x.token.isWhole hwhole
    rw [take_run hwhole, take_run (by rw [heq, hwhole]), heq]
    exact .both _ (x.next hwhole).beside hfound
  | false =>
    have hfails : ∀ scope, ∃ fault, take scope x.alone = .error fault := by
      intro scope
      rw [take, Syntax.get_bind, hwhole, if_neg Bool.false_ne_true]
      exact stuck_eq_error
    rcases x.token.not_isWhole hwhole with ⟨-, hbroken⟩ | ⟨hend, -⟩
    · refine .of_throws hfails fun scope => ?_
      have hnested : x.nested.token.isWhole = false := by rw [Token.isWhole, hbroken]; rfl
      rw [take, Syntax.get_bind, hnested, if_neg Bool.false_ne_true]
      exact stuck_eq_error
    · refine .of_fails (readToken_finish ?_) hfails
      rw [← x.beside.alone, hend]

instance {mark : String} [Inner mark] : Alike b (accept mark) (accept mark) := by
  unfold accept
  infer_instance

instance (word : String) : Alike b (acceptWord word) (acceptWord word) := by
  unfold acceptWord
  infer_instance

/-- Where a mark does not stand, the place stays the same. -/
theorem AlikeAt.accept_ite {mark : String} [hmark : Inner mark] {p p' q q' : Parser α} (hp : Alike b p p')
    (hq : AlikeAt x q q') :
    AlikeAt x (do if ← accept mark then p else q) (do if ← accept mark then p' else q') := by
  have hsame := x.token.isMark hmark.ne
  refine ⟨fun scope before hfound => ?_⟩
  rw [Syntax.accept_bind, Syntax.accept_bind, hsame]
  cases htoken : x.alone.token.isMark mark with
  | true =>
    have hwhole := Token.isWhole_of_kind (Token.kind_of_isMark htoken)
    exact (hp.at_places (x.next hwhole)).run scope before hfound
  | false => exact hq.run scope before hfound

/-- Whatever fails where the source ends may find the closing brace in the body. -/
theorem AlikeAt.of_finish {p q : Parser α} [Quietly q] (hfinish : x.alone.token.kind = .finish)
    (h : ∀ scope, ∃ fault, p scope x.alone = .error fault) : AlikeAt x p q :=
  .of_fails (readToken_finish (by rwa [← x.beside.alone])) h

instance (mark : String) : Alike b (expect mark) (expect mark) := by
  refine .of_at fun x => ?_
  have hfails : ∀ s : State, s.token.isMark mark = false → ∀ scope, ∃ fault, expect mark scope s = .error fault :=
    fun s hmark scope => expect_of_not_isMark hmark
  cases x.token with
  | same hwhole heq =>
    cases hmark : x.alone.token.isMark mark with
    | true =>
      refine ⟨fun scope before hfound => ?_⟩
      rw [expect_of_isMark hmark, expect_of_isMark (by rw [heq, hmark])]
      exact .both _ (x.next hwhole).beside hfound
    | false => exact .of_throws (hfails _ hmark) (hfails _ (by rw [heq, hmark]))
  | broken halone hnested =>
    exact .of_throws (hfails _ (Token.not_isMark_of_kind (by simp [halone]) mark))
      (hfails _ (Token.not_isMark_of_kind (by simp [hnested]) mark))
  | atEnd halone _ =>
    exact .of_finish (by rw [halone]) (hfails _ (Token.not_isMark_of_kind (by simp [halone]) mark))

/-- Nothing but the closing brace is expected in vain in the source and then found behind it. -/
instance (mark : String) [hmark : Inner mark] : Sure b (expect mark) (expect mark) where
  alike := inferInstance
  sure x scope before fault hfound hrun _ := by
    refine expect_of_not_isMark ?_
    rw [x.token.isMark hmark.ne]
    refine Bool.eq_false_iff.mpr fun htoken => ?_
    rw [expect_of_isMark htoken] at hrun
    cases hrun

instance {mark : String} [hmark : Loud mark] : Fails (expect mark) where
  fails hs hquiet := expect_of_not_isMark ((hquiet.token hs).not_isMark hmark.ne)

instance {mark : String} [hmark : Inner mark] (a : α) : Sure b
    (do if ← atMark mark then return a else stuck) (do if ← atMark mark then return a else stuck) where
  alike := inferInstance
  sure x scope before fault hfound hrun _ := by
    rw [Syntax.atMark_bind] at hrun ⊢
    rw [x.token.isMark hmark.ne]
    cases htoken : x.alone.token.isMark mark with
    | true =>
      rw [htoken] at hrun
      cases hrun
    | false => exact Throws.throws (p := (stuck : Parser α)) scope _

instance {mark : String} [hmark : Loud mark] (a : α) : Fails (do if ← atMark mark then return a else stuck) where
  fails {scope s} hs hquiet := by
    rw [Syntax.atMark_bind, (hquiet.token hs).not_isMark hmark.ne]
    exact Throws.throws (p := (stuck : Parser α)) scope s

instance (word : String) : Alike b (expectWord word) (expectWord word) := by
  unfold expectWord
  infer_instance

instance : Alike b anyWord anyWord := by
  unfold anyWord
  infer_instance

instance : Alike b anyString anyString := by
  unfold anyString
  infer_instance

instance (lineEnd : LineEnd) : Alike b (terminator lineEnd) (terminator lineEnd) := by
  unfold terminator
  infer_instance

theorem AlikeAt.atEnd_bind {f f' : Bool → Parser α} (h : ∀ c, AlikeAt x (f c) (f' c)) :
    AlikeAt x (atEnd >>= f) (atEnd >>= f') := by
  refine ⟨fun scope before hfound => ?_⟩
  have heq : (x.nested.token.isMark "\x7d" || x.nested.token.kind == .finish) =
      (x.alone.token.isMark "\x7d" || x.alone.token.kind == .finish) := by
    cases x.token with
    | same _ heq => rw [heq]
    | broken halone hnested =>
      rw [Token.not_isMark_of_kind (by simp [hnested]), Token.not_isMark_of_kind (by simp [halone]), halone, hnested]
    | atEnd halone hnested =>
      rw [halone, hnested]
      rfl
  show Outcome b before (f _ scope x.alone) (f' _ scope x.nested)
  rw [heq]
  exact (h _).run scope before hfound

instance : Alike b atEnd atEnd :=
  .of_at fun x =>
    have hpure (c : Bool) : AlikeAt x (pure c) (pure c) := .of_alike (h := .pure c)
    .atEnd_bind hpure

instance {close : String} [Inner close] {p q : Parser α} [Alike b p q] :
    Alike b (commaList close p) (commaList close q) := by
  unfold commaList
  infer_instance

theorem AlikeAt.atMark_bind_of_ne {mark : String} {f f' : Bool → Parser α} (hfinish : x.alone.token.kind ≠ .finish)
    (h : AlikeAt x (f (x.alone.token.isMark mark)) (f' (x.alone.token.isMark mark))) :
    AlikeAt x (atMark mark >>= f) (atMark mark >>= f') := by
  refine ⟨fun scope before hfound => ?_⟩
  rw [Syntax.atMark_bind, Syntax.atMark_bind, x.token.isMark_of_ne hfinish]
  exact h.run scope before hfound

theorem AlikeAt.atKind_bind_of_ne {kind : TokenKind} {f f' : Bool → Parser α}
    (hfinish : x.alone.token.kind ≠ .finish)
    (h : AlikeAt x (f (x.alone.token.kind == kind)) (f' (x.alone.token.kind == kind))) :
    AlikeAt x (atKind kind >>= f) (atKind kind >>= f') := by
  refine ⟨fun scope before hfound => ?_⟩
  rw [Syntax.atKind_bind, Syntax.atKind_bind, x.token.kind_of_ne hfinish]
  exact h.run scope before hfound

/-- What follows an item in a list with gaps. -/
theorem Alike.slotEnd (close : String) (item : α) : Alike b
    (do
      if (← atMark close) || (← accept ",") then return some item
      else missing (if ← atKind .finish then close else ","))
    (do
      if (← atMark close) || (← accept ",") then return some item
      else missing (if ← atKind .finish then close else ",")) := by
  have hmissing : Alike b (do missing (if ← atKind .finish then close else ",") : Parser (Option α))
      (do missing (if ← atKind .finish then close else ",")) :=
    have hthrows : Throws (do missing (if ← atKind .finish then close else ",") : Parser (Option α)) :=
      ⟨fun scope s => by
        rw [atKind_bind]
        exact Throws.throws scope s⟩
    inferInstance
  refine .of_at fun x => ?_
  by_cases hfinish : x.alone.token.kind = .finish
  · refine .of_finish hfinish fun scope => ?_
    have hmark : ∀ mark, x.alone.token.isMark mark = false := Token.not_isMark_of_kind (by simp [hfinish])
    rw [atMark_bind, hmark, accept_bind, hmark, Bool.or_self, if_neg Bool.false_ne_true, if_neg Bool.false_ne_true,
      atKind_bind]
    exact Throws.throws _ _
  · exact .atMark_bind_of_ne hfinish (.bind .of_alike fun _ => inferInstance)

instance (close : String) {p q : Parser α} [hp : Alike b p q] : Alike b (slots close p) (slots close q) := by
  have hq := hp.quietly
  have hend := fun item : α => Alike.slotEnd (b := b) close item
  have hquietly := fun item => (hend item).quietly
  dsimp only [slots]
  refine Alike.many (h := .then fun _ => .of_at fun x => ?_)
  by_cases hfinish : x.alone.token.kind = .finish
  · refine .of_finish hfinish fun scope => ?_
    rw [atMark_bind, Token.not_isMark_of_kind (by simp [hfinish]), if_neg Bool.false_ne_true, atKind_bind, hfinish,
      if_pos (beq_self_eq_true _)]
    exact Throws.throws _ _
  · refine .atMark_bind_of_ne hfinish (.ite (fun _ => .of_alike) fun _ => .atKind_bind_of_ne hfinish ?_)
    exact .of_alike

/-- Where the reader of the source alone fails, the other one may take the end of the body along. -/
theorem AlikeAt.of_past {p q : Parser α} (hp : ∀ scope, ∃ fault, p scope x.alone = .error fault)
    (hq : ∀ {scope a t}, q scope x.nested = .ok (a, t) → Quiet t.here ∧ t.Placed) : AlikeAt x p q where
  run scope before _ := by
    obtain ⟨fault, hfault⟩ := hp scope
    rw [hfault]
    cases hrun : q scope x.nested with
    | error other => exact .fails _ _
    | ok r =>
      obtain ⟨hquiet, hplaced⟩ := hq hrun
      exact .beyond _ _ hquiet hplaced

end Steps

end DeclSchema.Syntax
