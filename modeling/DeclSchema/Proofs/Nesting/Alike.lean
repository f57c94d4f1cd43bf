import DeclSchema.Proofs.Nesting.Places

/-! # Readers of a source alone and as a body

Reading a source as a body goes like reading it alone, as long as the reader stays inside. Where the
reader of the source alone fails because the source ends, the other one may take the brace that closes
the body; it then stays in the quiet text behind. The class of such readers is closed under the ways
in which readers are put together.
-/
namespace DeclSchema.Syntax
open Text

variable {α β γ : Type} {b : Body}

/-- What becomes of a reader alone and in a body that begin beside each other, when `before` was met in
front of the body. If a bound on depth or on repetitions was met, nothing is said. -/
inductive Outcome (b : Body) (before : List Item) : Except Fault (α × State) → Except Fault (α × State) → Prop
  | both (a : α) {s t : State} (beside : b.Beside s t) (found : t.found = s.found ++ before) :
      Outcome b before (.ok (a, s)) (.ok (a, t))
  | fails (fault other : Fault) : Outcome b before (.error fault) (.error other)
  | beyond (fault : Fault) (a : α) {t : State} (quiet : Quiet t.here) (placed : t.Placed) :
      Outcome b before (.error fault) (.ok (a, t))
  | short {fault : Fault} (h : fault.isExhausted = true) (result : Except Fault (α × State)) :
      Outcome b before (.error fault) result
  | bounded (result : Except Fault (α × State)) {fault : Fault} (h : fault.isExhausted = true) :
      Outcome b before result (.error fault)

structure AlikeAt (x : b.Places) (p q : Parser α) : Prop where
  run : ∀ scope before, x.nested.found = x.alone.found ++ before →
    Outcome b before (p scope x.alone) (q scope x.nested)

/-- The reader stays in a quiet text. -/
class Quietly (q : Parser α) : Prop where
  quiet : ∀ {scope s a t}, Quiet s.here → s.Placed → q scope s = .ok (a, t) → Quiet t.here ∧ t.Placed

class Alike (b : Body) (p q : Parser α) : Prop where
  quietly : Quietly q
  at_places : ∀ x : b.Places, AlikeAt x p q

/-- The reader finds nothing in a quiet text. -/
class Fails (p : Parser α) : Prop where
  fails : ∀ {scope s}, s.Placed → Quiet s.here → ∃ fault, p scope s = .error fault

section Quietly
variable {p q : Parser α} {f : α → Parser β}

/-- A steady reader stays in a quiet text. -/
instance (priority := high) [hp : Steady p] : Quietly p where
  quiet h hs hrun := h.trail hs (hp.moves hs hrun).trail

instance (priority := high) Quietly.of_throws [Throws p] : Quietly p := ⟨fun _ _ h => absurd h Throws.ne_ok⟩

theorem Quietly.of_fails [hp : Fails p] : Quietly p where
  quiet {scope s _ _} h hs hrun := by
    obtain ⟨fault, hfault⟩ : ∃ fault, p scope s = .error fault := hp.fails hs h
    rw [hfault] at hrun
    cases hrun

theorem Quietly.bind [hp : Quietly p] (hf : ∀ a, Quietly (f a)) : Quietly (p >>= f) where
  quiet h hs hrun := by
    obtain ⟨a, u, hfirst, hrest⟩ := bind_eq_ok.mp hrun
    obtain ⟨hquiet, hplaced⟩ := hp.quiet h hs hfirst
    exact (hf a).quiet hquiet hplaced hrest

instance [Quietly p] [hf : ∀ a, Quietly (f a)] : Quietly (p >>= f) := .bind hf

instance {c : Prop} [Decidable c] [hp : Quietly p] [hq : Quietly q] : Quietly (if c then p else q) := by
  split
  · exact hp
  · exact hq

-- As for steady readers, nothing depends on a value that is only tested or dropped.
instance (priority := high) {q : Parser β} [Quietly p] [hq : Quietly q] : Quietly (p >>= fun _ => q) := .bind fun _ => hq

instance (priority := high) {c : α → Prop} [∀ a, Decidable (c a)] {q r : Parser β} [Quietly p] [Quietly q] [Quietly r] :
    Quietly (p >>= fun a => if c a then q else r) := .bind fun _ => inferInstance

instance (priority := high) {c : α → Prop} [∀ a, Decidable (c a)] {q : Parser β} {rest : Parser γ} [Quietly p]
    [Quietly q] [Quietly rest] : Quietly (p >>= fun a => if c a then q >>= fun _ => rest else rest) :=
  .bind fun _ => inferInstance

instance (items : List Item) : Quietly (emitAll items) where
  quiet h hs hrun := h.trail hs (emitAll_moves hs hrun).trail

instance (item : Item) : Quietly (emit item) where
  quiet h hs hrun := h.trail hs (emit_moves hs hrun).trail

instance {change : Scope → Scope} [hp : Quietly p] : Quietly (inScope change p) := ⟨fun h hs hrun => hp.quiet h hs hrun⟩

instance [hp : Quietly p] [hq : Quietly q] : Quietly (either p q) where
  quiet h hs hrun := (either_eq_ok hrun).elim (hp.quiet h hs) (hq.quiet h hs)

instance {q : Parser β} [hp : Quietly p] : Quietly (blaming p q) where
  quiet h hs hrun := hp.quiet h hs (blaming_eq_ok hrun)

instance {p : Parser (Option α)} [Quietly p] (n : Nat) : Quietly (manyUpTo p n) := by
  induction n with
  | zero =>
    unfold manyUpTo
    infer_instance
  | succ n ih =>
    unfold manyUpTo
    refine Quietly.bind fun a => ?_
    cases a <;> dsimp only <;> infer_instance

instance {p : Parser (Option α)} [Quietly p] : Quietly (many p) := by
  unfold many
  infer_instance

instance {p : α → Parser (Option α)} [∀ a, Quietly (p a)] (a : α) (n : Nat) : Quietly (extendUpTo p a n) := by
  induction n generalizing a with
  | zero =>
    unfold extendUpTo
    infer_instance
  | succ n ih =>
    unfold extendUpTo
    refine Quietly.bind fun c => ?_
    cases c <;> dsimp only <;> infer_instance

instance {p : α → Parser (Option α)} [∀ a, Quietly (p a)] (a : α) : Quietly (extend p a) := by
  unfold extend
  infer_instance

instance [hp : Quietly p] : Quietly (gather p) where
  quiet {_ s _ t} h hs hrun := by
    obtain ⟨u, hinner, -, rfl⟩ := gather_eq_ok hrun
    exact hp.quiet (s := { s with found := [] }) (t := u) h hs hinner

end Quietly

section Composition
variable {x : b.Places} {p q : Parser α} {f f' : α → Parser β} {before : List Item}

theorem AlikeAt.of_alike [h : Alike b p q] : AlikeAt x p q := h.at_places x

theorem Alike.of_at [hq : Quietly q] (h : ∀ x : b.Places, AlikeAt x p q) : Alike b p q := ⟨hq, h⟩

theorem Body.Beside.quiet_of_atEnd {s t : State} (h : b.Beside s t) (hend : s.here = []) : Quiet t.here := by
  cases h.place with
  | inside hne => exact absurd hend hne
  | atEnd _ here =>
    rw [here]
    exact .mark (by decide) b.quiet

/-- Where the source ends, nothing has to be shown of a reader that fails there. -/
theorem AlikeAt.of_fails [hq : Quietly q] (hend : x.alone.here = [])
    (h : ∀ scope, ∃ fault, p scope x.alone = .error fault) : AlikeAt x p q where
  run scope before _ := by
    obtain ⟨fault, hfault⟩ := h scope
    rw [hfault]
    cases hrun : q scope x.nested with
    | error other => exact .fails _ _
    | ok r =>
      obtain ⟨hquiet, hplaced⟩ := hq.quiet (x.beside.quiet_of_atEnd hend) x.beside.nested hrun
      exact .beyond _ _ hquiet hplaced

instance (priority := high) Alike.of_throws [hp : Throws p] [hq : Throws q] : Alike b p q where
  quietly := inferInstance
  at_places x := ⟨fun scope before _ => by
    obtain ⟨fault, hfault⟩ := hp.throws scope x.alone
    obtain ⟨other, hother⟩ := hq.throws scope x.nested
    rw [hfault, hother]
    exact .fails _ _⟩

theorem AlikeAt.of_throws (hp : ∀ scope, ∃ fault, p scope x.alone = .error fault)
    (hq : ∀ scope, ∃ fault, q scope x.nested = .error fault) : AlikeAt x p q where
  run scope before _ := by
    obtain ⟨fault, hfault⟩ := hp scope
    obtain ⟨other, hother⟩ := hq scope
    rw [hfault, hother]
    exact .fails _ _

theorem AlikeAt.bind (hp : AlikeAt x p q) (hf : ∀ a, Alike b (f a) (f' a)) : AlikeAt x (p >>= f) (q >>= f') where
  run scope before hfound := by
    have hout := hp.run scope before hfound
    rw [bind_run, bind_run]
    generalize p scope x.alone = r at hout
    generalize q scope x.nested = r' at hout
    cases hout with
    | both a beside found => exact ((hf a).at_places ⟨_, _, beside⟩).run scope before found
    | fails => exact .fails _ _
    | @beyond fault a t quiet placed =>
      show Outcome b before (.error fault) (f' a scope t)
      cases hrun : f' a scope t with
      | error other => exact .fails _ _
      | ok r =>
        obtain ⟨hquiet, hplaced⟩ := (hf a).quietly.quiet quiet placed hrun
        exact .beyond _ _ hquiet hplaced
    | short h => exact .short h _
    | bounded _ h => exact .bounded _ h

instance Alike.bind [hp : Alike b p q] [hf : ∀ a, Alike b (f a) (f' a)] : Alike b (p >>= f) (q >>= f') where
  quietly := by
    have hq := hp.quietly
    have hf' := fun a => (hf a).quietly
    infer_instance
  at_places x := (hp.at_places x).bind hf

theorem Alike.then [Alike b p q] (hf : ∀ a, Alike b (f a) (f' a)) : Alike b (p >>= f) (q >>= f') := .bind

instance Alike.pure (a : α) : Alike b (pure a) (pure a) :=
  .of_at fun x => ⟨fun _ _ hfound => .both a x.beside hfound⟩

instance Alike.map {h : α → β} [Alike b p q] : Alike b (h <$> p) (h <$> q) :=
  Alike.then fun a => Alike.pure (h a)

instance Alike.discard [Alike b p q] : Alike b (discard p : Parser Unit) (discard q) :=
  Alike.then fun _ => Alike.pure ()

end Composition

class Same (a a' : α) : Prop where
  eq : a' = a

section Looks
variable {x : b.Places} {p p' q q' : Parser α}

theorem AlikeAt.get_bind {f f' : State → Parser α} (h : AlikeAt x (f x.alone) (f' x.nested)) :
    AlikeAt x (get >>= f) (get >>= f') := ⟨h.run⟩

theorem AlikeAt.current_bind {f f' : Token → Parser α} (h : AlikeAt x (f x.alone.token) (f' x.nested.token)) :
    AlikeAt x (current >>= f) (current >>= f') := ⟨h.run⟩

theorem AlikeAt.following_bind {f f' : Token → Parser α}
    (h : AlikeAt x (f x.alone.next.token) (f' x.nested.next.token)) :
    AlikeAt x (following >>= f) (following >>= f') := ⟨h.run⟩

theorem AlikeAt.read_bind {f f' : Scope → Parser α} (h : ∀ scope, AlikeAt x (f scope) (f' scope)) :
    AlikeAt x (read >>= f) (read >>= f') := ⟨fun scope => (h scope).run scope⟩

theorem AlikeAt.atMark_bind {mark : String} {f f' : Bool → Parser α} (hmark : mark ≠ "\x7d")
    (h : AlikeAt x (f (x.alone.token.isMark mark)) (f' (x.alone.token.isMark mark))) :
    AlikeAt x (atMark mark >>= f) (atMark mark >>= f') := by
  refine ⟨fun scope before hfound => ?_⟩
  rw [Syntax.atMark_bind, Syntax.atMark_bind, x.token.isMark hmark]
  exact h.run scope before hfound

theorem AlikeAt.atWord_bind {word : String} {f f' : Bool → Parser α}
    (h : AlikeAt x (f (x.alone.token.isWord word)) (f' (x.alone.token.isWord word))) :
    AlikeAt x (atWord word >>= f) (atWord word >>= f') := by
  refine ⟨fun scope before hfound => ?_⟩
  rw [Syntax.atWord_bind, Syntax.atWord_bind, x.token.isWord]
  exact h.run scope before hfound

theorem AlikeAt.atKind_bind {kind : TokenKind} {f f' : Bool → Parser α} (hmark : kind ≠ .mark)
    (hfinish : kind ≠ .finish)
    (h : AlikeAt x (f (x.alone.token.kind == kind)) (f' (x.alone.token.kind == kind))) :
    AlikeAt x (atKind kind >>= f) (atKind kind >>= f') := by
  refine ⟨fun scope before hfound => ?_⟩
  rw [Syntax.atKind_bind, Syntax.atKind_bind, x.token.kind hmark hfinish]
  exact h.run scope before hfound

theorem AlikeAt.endsHere_bind {f f' : Bool → Parser α} (h : ∀ ends, AlikeAt x (f ends) (f' ends)) :
    AlikeAt x (endsHere >>= f) (endsHere >>= f') := by
  refine ⟨fun scope before hfound => ?_⟩
  rw [Syntax.endsHere_bind, Syntax.endsHere_bind, x.endsBefore_nested]
  exact (h _).run scope before hfound

theorem AlikeAt.ite {c : Prop} [Decidable c] (hp : c → AlikeAt x p p') (hq : ¬ c → AlikeAt x q q') :
    AlikeAt x (if c then p else q) (if c then p' else q') := by
  split
  · exact hp ‹_›
  · exact hq ‹_›

end Looks

/-- Where the reader alone fails, the other one fails, too. -/
class Sure (b : Body) (p q : Parser α) : Prop where
  alike : Alike b p q
  sure : ∀ (x : b.Places) (scope : Scope) (before : List Item) (fault : Fault),
    x.nested.found = x.alone.found ++ before → p scope x.alone = .error fault → fault.isExhausted = false →
    ∃ other, q scope x.nested = .error other

section Alternatives
variable {x : b.Places} {p p' q q' : Parser α} {f f' : α → Parser β}

instance Alike.inScope {change : Scope → Scope} [h : Alike b p q] : Alike b (inScope change p) (inScope change q) where
  quietly := by
    have hq := h.quietly
    infer_instance
  at_places x := ⟨fun scope => (h.at_places x).run (change scope)⟩

instance Alike.enclosed [h : Alike b p q] : Alike b (enclosed p) (enclosed q) := Alike.inScope

/-- A reader that needs what no quiet text has does not get beyond the body. -/
instance Sure.bind_fails [hp : Alike b p q] [hfails : ∀ a, Fails (f' a)] [hf : ∀ a, Sure b (f a) (f' a)] :
    Sure b (p >>= f) (q >>= f') where
  alike := by
    have hf' := fun a => (hf a).alike
    infer_instance
  sure x scope before fault hfound hrun hfault := by
    have hout := (hp.at_places x).run scope before hfound
    rw [bind_run] at hrun ⊢
    generalize p scope x.alone = r at hout hrun
    generalize q scope x.nested = r' at hout
    cases hout with
    | both a beside found => exact (hf a).sure ⟨_, _, beside⟩ scope before fault found hrun hfault
    | fails => exact ⟨_, rfl⟩
    | beyond _ a quiet placed => exact (hfails a).fails placed quiet
    | short h =>
      cases hrun
      rw [h] at hfault
      cases hfault
    | bounded => exact ⟨_, rfl⟩

instance (priority := low) Sure.bind [hp : Sure b p q] [hf : ∀ a, Sure b (f a) (f' a)] : Sure b (p >>= f) (q >>= f') where
  alike := by
    have hp' := hp.alike
    have hf' := fun a => (hf a).alike
    infer_instance
  sure x scope before fault hfound hrun hfault := by
    have hout := (hp.alike.at_places x).run scope before hfound
    have hsure := fun fault => hp.sure x scope before fault hfound
    rw [bind_run] at hrun ⊢
    generalize p scope x.alone = r at hout hrun hsure
    generalize q scope x.nested = r' at hout hsure
    cases hout with
    | both a beside found => exact (hf a).sure ⟨_, _, beside⟩ scope before fault found hrun hfault
    | fails => exact ⟨_, rfl⟩
    | beyond _ a quiet placed =>
      cases hrun
      obtain ⟨other, hother⟩ := hsure _ rfl hfault
      cases hother
    | short h =>
      cases hrun
      rw [h] at hfault
      cases hfault
    | bounded => exact ⟨_, rfl⟩

theorem Sure.then [Sure b p q] (hf : ∀ a, Sure b (f a) (f' a)) : Sure b (p >>= f) (q >>= f') := .bind

instance (priority := high) Sure.of_throws [Throws p] [hq : Throws q] : Sure b p q :=
  ⟨inferInstance, fun x scope _ _ _ _ _ => hq.throws scope x.nested⟩

theorem Sure.get_bind {f f' : State → Parser α} [Quietly (get >>= f')] (h : ∀ x : b.Places, Sure b (f x.alone) (f' x.nested)) :
    Sure b (get >>= f) (get >>= f') where
  alike := .of_at fun x => .get_bind ((h x).alike.at_places x)
  sure x scope before fault hfound hrun := (h x).sure x scope before fault hfound hrun

theorem Sure.current_bind {f f' : Token → Parser α} [Quietly (current >>= f')]
    (h : ∀ x : b.Places, Sure b (f x.alone.token) (f' x.nested.token)) : Sure b (current >>= f) (current >>= f') where
  alike := .of_at fun x => .current_bind ((h x).alike.at_places x)
  sure x scope before fault hfound hrun := (h x).sure x scope before fault hfound hrun

instance Sure.pure (a : α) : Sure b (pure a) (pure a) := ⟨inferInstance, fun _ _ _ _ _ hrun _ => by cases hrun⟩

theorem Sure.map {h : α → β} [Sure b p q] : Sure b (h <$> p) (h <$> q) :=
  Sure.then fun a => Sure.pure (h a)

instance Sure.discard [Sure b p q] : Sure b (discard p : Parser Unit) (discard q) :=
  Sure.then fun _ => Sure.pure ()

instance Sure.inScope {change : Scope → Scope} [h : Sure b p q] : Sure b (inScope change p) (inScope change q) where
  alike := by
    have hp := h.alike
    infer_instance
  sure x scope := h.sure x (change scope)

instance Sure.enclosed [h : Sure b p q] : Sure b (enclosed p) (enclosed q) := Sure.inScope

instance Fails.ite {c : Prop} [Decidable c] [hp : Fails p] [hq : Fails q] : Fails (if c then p else q) := by
  split
  · exact hp
  · exact hq

/-- What fails where it stands needs not be sure of itself. -/
instance Fails.bind [hp : Fails p] : Fails (p >>= f) where
  fails hs h := by
    obtain ⟨fault, hfault⟩ := hp.fails hs h
    exact ⟨fault, bind_of_error hfault⟩

instance Fails.then [hp : Quietly p] [hf : ∀ a, Fails (f a)] : Fails (p >>= f) where
  fails {scope s} hs h := by
    rw [bind_run]
    cases hrun : p scope s with
    | error fault => exact ⟨fault, rfl⟩
    | ok r =>
      obtain ⟨hquiet, hplaced⟩ := hp.quiet h hs hrun
      exact (hf r.1).fails hplaced hquiet

-- As above, where every value is only tested or dropped.
instance (priority := high) {r : Parser β} [Quietly p] [hr : Fails r] : Fails (p >>= fun _ => r) :=
  @Fails.then _ _ _ _ _ fun _ => hr

instance (priority := high) {r r' : Parser β} [Alike b p q] [hfails : Fails r'] [hr : Sure b r r'] :
    Sure b (p >>= fun _ => r) (q >>= fun _ => r') := @Sure.bind_fails _ _ _ _ _ _ _ _ (fun _ => hfails) fun _ => hr

/-- What becomes of a second way to read after a first one has failed. -/
theorem Outcome.second {before : List Item} (fault other : Fault) : ∀ u u' : Except Fault (α × State),
    Outcome b before u u' → Outcome b before
      (if fault.isExhausted then .error fault
        else match u with
          | .ok result => .ok result
          | .error second => .error (fault.further second))
      (if other.isExhausted then .error other
        else match u' with
          | .ok result => .ok result
          | .error second => .error (other.further second)) := by
  have hfurther : ∀ first second : Fault, second.isExhausted = true → (first.further second).isExhausted = true := by
    intro first second hsecond
    rw [Fault.further, hsecond, Bool.not_true, Bool.and_false, if_neg Bool.false_ne_true, hsecond]
  intro u u' hout
  by_cases hfault : fault.isExhausted = true
  · rw [if_pos hfault]
    exact .short hfault _
  · by_cases hother : other.isExhausted = true
    · rw [if_pos hother]
      exact .bounded _ hother
    · rw [if_neg hfault, if_neg hother]
      cases hout with
      | both a beside found => exact .both a beside found
      | fails => exact .fails _ _
      | beyond _ a quiet placed => exact .beyond _ a quiet placed
      | short h => exact .short (hfurther _ _ h) _
      | bounded _ h => exact .bounded _ (hfurther _ _ h)

instance Alike.either [hp : Sure b p p'] [hq : Alike b q q'] : Alike b (either p q) (either p' q') where
  quietly := by
    have hp' := hp.alike.quietly
    have hq' := hq.quietly
    infer_instance
  at_places x := by
    refine ⟨fun scope before hfound => ?_⟩
    have hfirst := (hp.alike.at_places x).run scope before hfound
    have hsecond := (hq.at_places x).run scope before hfound
    have hsure := fun fault => hp.sure x scope before fault hfound
    unfold Syntax.either
    generalize p scope x.alone = r at hfirst hsure
    generalize p' scope x.nested = r' at hfirst hsure
    generalize q scope x.alone = u at hsecond
    generalize q' scope x.nested = u' at hsecond
    cases hfirst with
    | both a beside found => exact .both a beside found
    | fails fault other => exact Outcome.second fault other u u' hsecond
    | beyond fault a =>
      cases hfault : fault.isExhausted with
      | true =>
        simp only [hfault, if_true]
        exact .short hfault _
      | false =>
        obtain ⟨other, hother⟩ := hsure fault rfl hfault
        cases hother
    | short h =>
      simp only [h, if_true]
      exact .short h _
    | bounded _ h =>
      simp only [h, if_true]
      exact .bounded _ h

instance Alike.optionally [Sure b p p'] : Alike b (optionally p) (optionally p') :=
  have : Sure b (some <$> p) (some <$> p') := .map
  inferInstanceAs (Alike b (Syntax.either (some <$> p) (Pure.pure none)) (Syntax.either (some <$> p') (Pure.pure none)))

/-- Only the first reader decides. -/
instance Alike.blaming {q q' : Parser β} [hp : Alike b p p'] : Alike b (blaming p q) (blaming p' q') where
  quietly := by
    have hp' := hp.quietly
    infer_instance
  at_places x := by
    refine ⟨fun scope before hfound => ?_⟩
    have hout := (hp.at_places x).run scope before hfound
    have hkeeps : ∀ {p : Parser α} {q : Parser β} {s : State} {fault : Fault}, p scope s = .error fault →
        ∃ other, Syntax.blaming p q scope s = .error other ∧ (fault.isExhausted = true → other.isExhausted = true) := by
      intro p q s fault hrun
      unfold Syntax.blaming
      rw [hrun]
      dsimp only
      split
      · exact ⟨fault, rfl, id⟩
      · rename_i other _
        refine ⟨_, rfl, fun h => ?_⟩
        rw [Fault.further, h, Bool.not_true, Bool.and_false, if_neg Bool.false_ne_true, h]
    generalize hr : p scope x.alone = r at hout
    generalize hr' : p' scope x.nested = r' at hout
    cases hout with
    | both a beside found =>
      rw [blaming_of_ok hr, blaming_of_ok hr']
      exact .both a beside found
    | fails =>
      obtain ⟨_, hfault, -⟩ := hkeeps (q := q) hr
      obtain ⟨_, hother, -⟩ := hkeeps (q := q') hr'
      rw [hfault, hother]
      exact .fails _ _
    | beyond _ a quiet placed =>
      obtain ⟨_, hfault, -⟩ := hkeeps (q := q) hr
      rw [hfault, blaming_of_ok hr']
      exact .beyond _ a quiet placed
    | short h =>
      obtain ⟨_, hfault, hshort⟩ := hkeeps (q := q) hr
      rw [hfault]
      exact .short (hshort h) _
    | bounded _ h =>
      obtain ⟨_, hother, hbounded⟩ := hkeeps (q := q') hr'
      rw [hother]
      exact .bounded _ (hbounded h)

end Alternatives

section Repetitions
variable {x : b.Places}

theorem Alike.exhausted (q : Parser α) [Quietly q] : Alike b Syntax.exhausted q :=
  .of_at fun _ => ⟨fun _ _ _ => .short rfl _⟩

theorem Alike.to_exhausted (p : Parser α) : Alike b p Syntax.exhausted :=
  .of_at fun _ => ⟨fun _ _ _ => .bounded _ rfl⟩

/-- The bounds on repetitions need not be the same. -/
theorem Alike.manyUpTo {p q : Parser (Option α)} [hp : Alike b p q] (n m : Nat) :
    Alike b (manyUpTo p n) (manyUpTo q m) := by
  have hq := hp.quietly
  induction n generalizing m with
  | zero => exact .exhausted _
  | succ n ih =>
    cases m with
    | zero => exact .to_exhausted _
    | succ m =>
      have hrest := ih m
      unfold Syntax.manyUpTo
      refine .then fun r => ?_
      cases r <;> dsimp only <;> infer_instance

instance Alike.many {p q : Parser (Option α)} [h : Alike b p q] : Alike b (many p) (many q) where
  quietly := by
    have hq := h.quietly
    infer_instance
  at_places x := by
    unfold Syntax.many
    exact .get_bind ((Alike.manyUpTo _ _).at_places x)

theorem Alike.extendUpTo {p q : α → Parser (Option α)} [hp : ∀ a, Alike b (p a) (q a)] (a : α) (n m : Nat) :
    Alike b (extendUpTo p a n) (extendUpTo q a m) := by
  have hq := fun a => (hp a).quietly
  induction n generalizing a m with
  | zero => exact .exhausted _
  | succ n ih =>
    cases m with
    | zero => exact .to_exhausted _
    | succ m =>
      unfold Syntax.extendUpTo
      refine .then fun r => ?_
      cases r with
      | none => exact Alike.pure a
      | some c => exact ih c m

instance Alike.extend {p q : α → Parser (Option α)} [hp : ∀ a, Alike b (p a) (q a)] (a : α) :
    Alike b (extend p a) (extend q a) where
  quietly := by
    have hq := fun a => (hp a).quietly
    infer_instance
  at_places x := by
    unfold Syntax.extend
    exact .get_bind ((Alike.extendUpTo a _ _).at_places x)

end Repetitions

section Gather
variable {p q : Parser α}

instance Alike.gather [hp : Alike b p q] : Alike b (gather p) (gather q) where
  quietly := by
    have hq := hp.quietly
    infer_instance
  at_places x := by
    refine ⟨fun scope before hfound => ?_⟩
    have hout := (hp.at_places (x.withFound [] [])).run scope [] rfl
    unfold Syntax.gather
    dsimp only [Body.Places.withFound] at hout
    generalize p scope { x.alone with found := [] } = r at hout
    generalize q scope { x.nested with found := [] } = r' at hout
    cases hout with
    | @both a s t beside found =>
      rw [List.append_nil] at found
      dsimp only
      rw [found]
      let y : b.Places := ⟨s, t, beside⟩
      exact .both _ (y.withFound x.alone.found x.nested.found).beside hfound
    | fails => exact .fails _ _
    | beyond _ a quiet placed => exact .beyond _ _ quiet placed
    | short h => exact .short h _
    | bounded _ h => exact .bounded _ h

instance Alike.unseen [Alike b p q] : Alike b (unseen p) (unseen q) := Alike.map

end Gather

end DeclSchema.Syntax
