import DeclSchema.Proofs.Syntax.Runs
import DeclSchema.Proofs.Syntax.Spelling

/-! # Readers keep to the trail

A reader is steady in a source if each of its results lies on the trail of the state it began in, if
it keeps the declarations met before, and if all that it records is sound in the source. The class is
closed under the ways in which readers are put together, so that a reader is steady as soon as its
parts are.
-/
namespace DeclSchema.Syntax
open Text

variable {α β γ : Type}

/-- A reader that kept to the trail may have come from the first state to the second one. -/
structure Moves (s t : State) : Prop where
  trail : Trail s t
  placed : t.Placed
  keeps : s.found <:+ t.found

/-- Nothing is recorded on the way but what is sound in the source. -/
structure MovesIn (source : List Char) (s t : State) : Prop extends Moves s t where
  sound : ItemsSound source s.found → ItemsSound source t.found

section Moves
variable {source : List Char} {s t u : State}

theorem Moves.reaches (h : Moves s t) : s.Reaches t := Trail.samePlace_or_ahead h.trail

theorem Moves.refl (h : s.Placed) : Moves s s := ⟨.refl, h, List.suffix_rfl⟩

theorem Moves.trans (hst : Moves s t) (htu : Moves t u) : Moves s u where
  trail := hst.trail.trans htu.trail
  placed := htu.placed
  keeps := hst.keeps.trans htu.keeps

theorem MovesIn.refl (h : s.Placed) : MovesIn source s s := ⟨.refl h, id⟩

theorem MovesIn.trans (hst : MovesIn source s t) (htu : MovesIn source t u) : MovesIn source s u where
  toMoves := hst.toMoves.trans htu.toMoves
  sound h := htu.sound (hst.sound h)

theorem MovesIn.of_step (h : Step s t) (placed : t.Placed) (found : t.found = s.found) : MovesIn source s t where
  trail := .single h
  placed := placed
  keeps := ⟨[], found.symm⟩
  sound h := by rwa [found]

theorem MovesIn.placedIn (h : MovesIn source s t) (hs : s.PlacedIn source) : t.PlacedIn source :=
  hs.of_reaches h.reaches h.placed

end Moves

/-- From any token of the source, the reader keeps to the trail and records nothing that is not sound. -/
class SteadyIn (source : List Char) (p : Parser α) : Prop where
  moves : ∀ {scope s a t}, s.PlacedIn source → p scope s = .ok (a, t) → MovesIn source s t

abbrev Steady (p : Parser α) : Prop := ∀ source, SteadyIn source p

theorem Steady.moves {p : Parser α} [hp : Steady p] {scope : Scope} {s : State} {a : α} {t : State} (hs : s.Placed)
    (h : p scope s = .ok (a, t)) : Moves s t := ((hp s.here).moves ⟨hs, List.suffix_rfl⟩ h).toMoves

/-- Whatever the reader reads has the property if the text has all in it that the reader passes. -/
class Gives (text : List Char) (p : Parser α) (Q : α → Prop) : Prop where
  moves : ∀ {scope s a t}, s.Placed → p scope s = .ok (a, t) → Moves s t
  holds : ∀ {scope s a t}, s.Placed → p scope s = .ok (a, t) → State.Covered text s t → Q a

section Gives
variable {text : List Char} {p : Parser α} {P Q : α → Prop}

theorem Gives.any [Steady p] : Gives text p fun _ => True := ⟨Steady.moves, fun _ _ _ => trivial⟩

/-- Of what a steady reader reads this may hold wherever it stands. -/
theorem Gives.of_all [Steady p] (h : ∀ {scope s a t}, s.Placed → p scope s = .ok (a, t) → Q a) : Gives text p Q :=
  ⟨Steady.moves, fun hs hrun _ => h hs hrun⟩

theorem Gives.imp (hp : Gives text p P) (h : ∀ a, P a → Q a) : Gives text p Q :=
  ⟨hp.moves, fun hs hrun hcovered => h _ (hp.holds hs hrun hcovered)⟩

end Gives

class Throws (p : Parser α) : Prop where
  throws : ∀ scope s, ∃ fault, p scope s = .error fault

section Throws
variable {p : Parser α}

instance (fault : Fault) : Throws (throw fault : Parser α) := ⟨fun _ _ => ⟨fault, rfl⟩⟩

instance : Throws (exhausted : Parser α) := ⟨fun _ _ => ⟨_, rfl⟩⟩

instance : Throws (stuck : Parser α) := ⟨fun _ _ => stuck_eq_error⟩

instance : Throws (unexpected : Parser α) := ⟨fun _ _ => ⟨_, rfl⟩⟩

instance (what : String) : Throws (missing what : Parser α) where
  throws scope s := by
    obtain ⟨fault, hfault, -⟩ : ∃ fault, (missing what : Parser α) scope s = .error fault ∧ _ := missing_eq_error what
    exact ⟨fault, hfault⟩

instance (what : String) : Throws (misplaced what : Parser α) where
  throws scope s := by
    unfold misplaced
    rw [atKind_bind]
    split
    · exact Throws.throws scope s
    · exact ⟨_, rfl⟩

instance {f : α → Parser β} [hp : Throws p] : Throws (p >>= f) where
  throws scope s := by
    obtain ⟨fault, hfault⟩ := hp.throws scope s
    exact ⟨fault, bind_of_error hfault⟩

instance {f : State → Parser α} [hf : ∀ s, Throws (f s)] : Throws (get >>= f) :=
  ⟨fun scope s => (hf s).throws scope s⟩

theorem Throws.ne_ok [hp : Throws p] {scope : Scope} {s t : State} {a : α} : p scope s ≠ .ok (a, t) := by
  obtain ⟨fault, hfault⟩ := hp.throws scope s
  rw [hfault]
  simp

/-- What stands behind a reader that gives nothing does not matter. -/
instance (priority := high) SteadyIn.of_throws {source : List Char} [Throws p] : SteadyIn source p :=
  ⟨fun _ h => absurd h Throws.ne_ok⟩

instance (priority := high) Gives.of_throws {text : List Char} {Q : α → Prop} [Throws p] : Gives text p Q :=
  ⟨fun _ h => absurd h Throws.ne_ok, fun _ h => absurd h Throws.ne_ok⟩

end Throws

section Combinations
variable {source text : List Char} {p q : Parser α} {P Q : α → Prop} {R : β → Prop}

instance (a : α) : SteadyIn source (pure a : Parser α) where
  moves hs h := by
    cases h
    exact .refl hs.placed

instance : SteadyIn source (get : Parser State) where
  moves hs h := by
    cases h
    exact .refl hs.placed

instance : SteadyIn source (read : Parser Scope) where
  moves hs h := by
    cases h
    exact .refl hs.placed

/-- What is read with the value of a first reader has to be steady only for values that the
first one gives. -/
theorem SteadyIn.bind_gives {f : α → Parser β} [hp : SteadyIn source p] (hP : Gives source p P)
    (hf : ∀ a, P a → SteadyIn source (f a)) : SteadyIn source (p >>= f) where
  moves hs h := by
    obtain ⟨a, u, hrun, hrest⟩ := bind_eq_ok.mp h
    have hmoves := hp.moves hs hrun
    have hsteady := hf a (hP.holds hs.placed hrun (hs.covered u))
    exact hmoves.trans (hsteady.moves (hmoves.placedIn hs) hrest)

theorem SteadyIn.bind {f : α → Parser β} [hp : SteadyIn source p] (hf : ∀ a, SteadyIn source (f a)) :
    SteadyIn source (p >>= f) where
  moves hs h := by
    obtain ⟨a, u, hrun, hrest⟩ := bind_eq_ok.mp h
    have hmoves := hp.moves hs hrun
    exact hmoves.trans ((hf a).moves (hmoves.placedIn hs) hrest)

theorem Steady.bind {f : α → Parser β} [hp : Steady p] (hf : ∀ a, Steady (f a)) : Steady (p >>= f) :=
  fun source => .bind fun a => hf a source

instance {f : α → Parser β} [SteadyIn source p] [hf : ∀ a, SteadyIn source (f a)] : SteadyIn source (p >>= f) :=
  .bind hf

instance {f : α → β} [hp : SteadyIn source p] : SteadyIn source (f <$> p) where
  moves hs h := by
    obtain ⟨a, hrun, -⟩ := map_eq_ok.mp h
    exact hp.moves hs hrun

instance [hp : SteadyIn source p] : SteadyIn source (discard p : Parser Unit) where
  moves hs h := by
    obtain ⟨a, hrun, -⟩ := map_eq_ok.mp h
    exact hp.moves hs hrun

instance {c : Prop} [Decidable c] [hp : SteadyIn source p] [hq : SteadyIn source q] :
    SteadyIn source (if c then p else q) := by
  split
  · exact hp
  · exact hq

-- In the next five nothing depends on a value that is only tested or dropped, and what follows a step
-- that is taken under a condition is looked at once, though it stands in both branches.
instance (priority := high) {q : Parser β} [SteadyIn source p] [hq : SteadyIn source q] :
    SteadyIn source (p >>= fun _ => q) :=
  .bind fun _ => hq

instance (priority := high) {c : α → Prop} [∀ a, Decidable (c a)] {q r : Parser β} [SteadyIn source p]
    [SteadyIn source q] [SteadyIn source r] : SteadyIn source (p >>= fun a => if c a then q else r) :=
  .bind fun _ => inferInstance

instance (priority := high) {c : α → β → Prop} [∀ a b, Decidable (c a b)] {q : Parser β} {r t : Parser γ}
    [SteadyIn source p] [SteadyIn source q] [SteadyIn source r] [SteadyIn source t] :
    SteadyIn source (p >>= fun a => q >>= fun b => if c a b then r else t) :=
  .bind fun _ => .bind fun _ => inferInstance

instance (priority := high) {c : α → Prop} [∀ a, Decidable (c a)] {q : Parser β} {rest : Parser γ}
    [SteadyIn source p] [SteadyIn source q] [SteadyIn source rest] :
    SteadyIn source (p >>= fun a => if c a then q >>= fun _ => rest else rest) :=
  .bind fun _ => inferInstance

instance (priority := high) {c : α → Prop} [∀ a, Decidable (c a)] {q r : Parser β} {rest : β → Parser γ}
    [SteadyIn source p] [SteadyIn source q] [SteadyIn source r] [∀ b, SteadyIn source (rest b)] :
    SteadyIn source (p >>= fun a => if c a then q >>= rest else r >>= rest) :=
  .bind fun _ => inferInstance

instance {p q : Parser Bool} [SteadyIn source p] [hq : SteadyIn source q] : SteadyIn source (p <||> q) := by
  unfold orM
  refine .bind fun b => ?_
  cases b with
  | true => exact inferInstanceAs (SteadyIn source (pure true))
  | false => exact hq

theorem Gives.pure {a : α} (h : Q a) : Gives text (pure a) Q where
  moves := Steady.moves
  holds _ hrun _ := by
    cases hrun
    exact h

/-- The second reader has to be steady whatever the first one gives: where it stops bounds what the
first one passes. -/
theorem Gives.bind {f : α → Parser β} [∀ a, Steady (f a)] (hP : Gives text p P)
    (hf : ∀ a, P a → Gives text (f a) R) : Gives text (p >>= f) R where
  moves hs h := by
    obtain ⟨a, u, hrun, hrest⟩ := bind_eq_ok.mp h
    have hmoves := hP.moves hs hrun
    exact hmoves.trans (Steady.moves hmoves.placed hrest)
  holds {scope s b t} hs h hcovered := by
    obtain ⟨a, u, hrun, hrest⟩ := bind_eq_ok.mp h
    have hmoves := hP.moves hs hrun
    have hreaches := (Steady.moves hmoves.placed hrest).reaches
    have ha := hP.holds hs hrun (hcovered.mono s.reaches_self hreaches)
    exact (hf a ha).holds hmoves.placed hrest (hcovered.mono hmoves.reaches t.reaches_self)

/-- What a second reader gives does not depend on what a first one did that keeps to the trail. -/
theorem Gives.after {f : α → Parser β} (hp : ∀ {scope s a t}, s.Placed → p scope s = .ok (a, t) → Moves s t)
    (hf : ∀ a, Gives text (f a) R) : Gives text (p >>= f) R where
  moves hs h := by
    obtain ⟨a, u, hrun, hrest⟩ := bind_eq_ok.mp h
    have hmoves := hp hs hrun
    exact hmoves.trans ((hf a).moves hmoves.placed hrest)
  holds {scope s b t} hs h hcovered := by
    obtain ⟨a, u, hrun, hrest⟩ := bind_eq_ok.mp h
    have hmoves := hp hs hrun
    exact (hf a).holds hmoves.placed hrest (hcovered.mono hmoves.reaches t.reaches_self)

instance Gives.then {f : α → Parser β} [Steady p] [hf : ∀ a, Gives text (f a) R] : Gives text (p >>= f) R :=
  .after Steady.moves hf

instance Gives.ite {c : Prop} [Decidable c] [hp : Gives text p Q] [hq : Gives text q Q] :
    Gives text (if c then p else q) Q := by
  split
  · exact hp
  · exact hq

theorem Gives.ite_step {c : Prop} [Decidable c] {rest : Parser β} [Steady p] (h : Gives text rest R) :
    Gives text (if c then p >>= fun _ => rest else rest) R := by
  split
  · exact .after Steady.moves fun _ => h
  · exact h

-- As above, with the last of the readers.
instance (priority := high) {q : Parser β} [Steady p] [hq : Gives text q R] : Gives text (p >>= fun _ => q) R :=
  .after Steady.moves fun _ => hq

instance (priority := high) {c : α → Prop} [∀ a, Decidable (c a)] {q r : Parser β} [Steady p] [Gives text q R]
    [Gives text r R] : Gives text (p >>= fun a => if c a then q else r) R :=
  .after Steady.moves fun _ => inferInstance

instance (priority := high) {c : α → β → Prop} [∀ a b, Decidable (c a b)] {q : Parser β} {r t : Parser γ}
    {R : γ → Prop} [Steady p] [Steady q] [Gives text r R] [Gives text t R] :
    Gives text (p >>= fun a => q >>= fun b => if c a b then r else t) R :=
  .after Steady.moves fun _ => .after Steady.moves fun _ => inferInstance

instance (priority := high) {c : α → Prop} [∀ a, Decidable (c a)] {q : Parser γ} {rest : Parser β} [Steady p]
    [Steady q] [Gives text rest R] : Gives text (p >>= fun a => if c a then q >>= fun _ => rest else rest) R :=
  .after Steady.moves fun _ => inferInstance

theorem Gives.map {f : α → β} (h : Gives text p fun a => R (f a)) : Gives text (f <$> p) R where
  moves hs hrun := by
    obtain ⟨a, hp, -⟩ := map_eq_ok.mp hrun
    exact h.moves hs hp
  holds hs hrun hcovered := by
    obtain ⟨a, hp, rfl⟩ := map_eq_ok.mp hrun
    exact h.holds hs hp hcovered

instance {change : Scope → Scope} [hp : SteadyIn source p] : SteadyIn source (inScope change p) where
  moves hs h := hp.moves hs h

instance [hp : SteadyIn source p] : SteadyIn source (enclosed p) where
  moves hs h := hp.moves hs h

instance Gives.inScope {change : Scope → Scope} [h : Gives text p Q] : Gives text (inScope change p) Q :=
  ⟨fun hs hrun => h.moves hs hrun, fun hs hrun => h.holds hs hrun⟩

instance Gives.enclosed [h : Gives text p Q] : Gives text (enclosed p) Q :=
  ⟨fun hs hrun => h.moves hs hrun, fun hs hrun => h.holds hs hrun⟩

theorem either_eq_ok {scope : Scope} {s t : State} {a : α} (h : either p q scope s = .ok (a, t)) :
    p scope s = .ok (a, t) ∨ q scope s = .ok (a, t) := by
  unfold either at h
  split at h
  · rename_i hp
    cases h
    exact .inl hp
  · split at h
    · cases h
    · split at h
      · rename_i hq
        cases h
        exact .inr hq
      · cases h

theorem blaming_eq_ok {q : Parser β} {scope : Scope} {s t : State} {a : α}
    (h : blaming p q scope s = .ok (a, t)) : p scope s = .ok (a, t) := by
  unfold blaming at h
  split at h
  · rename_i hp
    cases h
    exact hp
  · split at h <;> cases h

instance [hp : SteadyIn source p] [hq : SteadyIn source q] : SteadyIn source (either p q) where
  moves hs h := (either_eq_ok h).elim (hp.moves hs) (hq.moves hs)

instance {q : Parser β} [hp : SteadyIn source p] : SteadyIn source (blaming p q) where
  moves hs h := hp.moves hs (blaming_eq_ok h)

instance [SteadyIn source p] : SteadyIn source (optionally p) := by
  unfold optionally
  infer_instance

instance {p : Parser (Option α)} [hp : SteadyIn source p] (n : Nat) : SteadyIn source (manyUpTo p n) := by
  induction n with
  | zero =>
    unfold manyUpTo
    infer_instance
  | succ n ih =>
    unfold manyUpTo
    refine .bind fun a => ?_
    cases a <;> dsimp only <;> infer_instance

instance {p : Parser (Option α)} [SteadyIn source p] : SteadyIn source (many p) := by
  unfold many
  infer_instance

theorem Gives.many {p : Parser (Option α)} [Steady p]
    (h : Gives text p fun result => ∀ a, result = some a → Q a) :
    Gives text (many p) fun all => ∀ a ∈ all, Q a := by
  have hupTo : ∀ n, Gives text (manyUpTo p n) fun all => ∀ a ∈ all, Q a := by
    intro n
    induction n with
    | zero =>
      unfold manyUpTo exhausted
      infer_instance
    | succ n ih =>
      unfold manyUpTo
      refine @Gives.bind _ _ _ _ _ _ _ (fun result => ?_) h fun result hresult => ?_
      · cases result <;> dsimp only <;> infer_instance
      · cases result with
        | none => exact .pure (by simp)
        | some a =>
          refine .bind ih fun rest hrest => .pure ?_
          simpa using ⟨hresult a rfl, hrest⟩
  unfold Syntax.many
  infer_instance

instance {p : α → Parser (Option α)} [hp : ∀ a, SteadyIn source (p a)] (a : α) (n : Nat) :
    SteadyIn source (extendUpTo p a n) := by
  induction n generalizing a with
  | zero =>
    unfold extendUpTo
    infer_instance
  | succ n ih =>
    unfold extendUpTo
    refine .bind fun b => ?_
    cases b with
    | none => exact inferInstanceAs (SteadyIn source (pure a))
    | some b => exact ih b

instance {p : α → Parser (Option α)} [∀ a, SteadyIn source (p a)] (a : α) : SteadyIn source (extend p a) := by
  unfold extend
  infer_instance

end Combinations

section Tokens
variable (mark word what : String) (kind : TokenKind) (lineEnd : LineEnd)

instance {source : List Char} : SteadyIn source take where
  moves _ h := by
    obtain ⟨-, -, rfl⟩ := take_eq_ok h
    exact .of_step (.token _) rfl rfl

instance : Steady current := by
  unfold current
  infer_instance

instance : Steady following := by
  unfold following
  infer_instance

instance : Steady endsHere := by
  unfold endsHere
  infer_instance

instance : Steady (atMark mark) := by
  unfold atMark
  infer_instance

instance : Steady (atWord word) := by
  unfold atWord
  infer_instance

instance : Steady (atKind kind) := by
  unfold atKind
  infer_instance

instance : Steady (accept mark) := by
  unfold accept
  infer_instance

instance : Steady (acceptWord word) := by
  unfold acceptWord
  infer_instance

instance : Steady atEnd := by
  unfold atEnd
  infer_instance

instance : Steady (expect mark) := by
  unfold expect
  infer_instance

instance : Steady (expectWord word) := by
  unfold expectWord
  infer_instance

instance : Steady anyWord := by
  unfold anyWord
  infer_instance

instance : Steady anyString := by
  unfold anyString
  infer_instance

instance : Steady (terminator lineEnd) := by
  unfold terminator
  infer_instance

instance {p : Parser α} [Steady p] : Steady (commaList mark p) := by
  unfold commaList
  infer_instance

instance {p : Parser α} [Steady p] : Steady (slots mark p) := by
  dsimp only [slots]
  infer_instance

end Tokens

theorem Gives.commaList {text : List Char} {p : Parser α} [Steady p] {Q : α → Prop} (close : String)
    (h : Gives text p Q) : Gives text (commaList close p) fun all => all ≠ [] ∧ ∀ a ∈ all, Q a := by
  unfold Syntax.commaList
  refine .bind h fun first hfirst => ?_
  have hsome : Gives text (do return some (← p)) fun result => ∀ a, result = some a → Q a :=
    .bind h fun a ha => .pure (by simpa using ha)
  have hnone : Gives text (Pure.pure none) fun result : Option α => ∀ a, result = some a → Q a :=
    .pure (by simp)
  refine .bind (.many (Q := Q) inferInstance) fun more hmore => .pure ?_
  simpa using ⟨hfirst, hmore⟩

section Emit
variable {source : List Char} {item : Item} {items : List Item}

theorem emit_moves {scope : Scope} {s t : State} {a : Unit} (hs : s.Placed) (h : emit item scope s = .ok (a, t)) :
    Moves s t := by
  cases h
  exact ⟨.single (.record _ _), hs, List.suffix_cons _ _⟩

theorem emitAll_moves {scope : Scope} {s t : State} {a : Unit} (hs : s.Placed)
    (h : emitAll items scope s = .ok (a, t)) : Moves s t := by
  induction items generalizing s with
  | nil =>
    cases h
    exact .refl hs
  | cons item rest ih =>
    have hboth : (emit item >>= fun _ => emitAll rest) scope s = .ok (a, t) := h
    obtain ⟨_, u, hitem, hrest⟩ := bind_eq_ok.mp hboth
    have hmoves := emit_moves hs hitem
    exact hmoves.trans (ih hmoves.placed hrest)

theorem emit_steady (h : ItemsSound source [item]) : SteadyIn source (emit item) where
  moves hs hrun := by
    refine ⟨emit_moves hs.placed hrun, fun hfound => ?_⟩
    cases hrun
    exact itemsSound_cons.mpr ⟨h, hfound⟩

theorem emitAll_steady (h : ItemsSound source items) : SteadyIn source (emitAll items) := by
  unfold emitAll
  induction items with
  | nil => exact inferInstanceAs (SteadyIn source (pure ()))
  | cons item rest ih =>
    obtain ⟨hitem, hrest⟩ := itemsSound_cons.mp h
    have hemit := emit_steady hitem
    have hmore := ih hrest
    exact inferInstanceAs (SteadyIn source (emit item >>= fun _ => rest.forM emit))

instance (priority := high) Gives.emitAll {text : List Char} {q : Parser β} {R : β → Prop} [hq : Gives text q R] :
    Gives text (emitAll items >>= fun _ => q) R := .after emitAll_moves fun _ => hq

end Emit

section Gather
variable {source text : List Char} {p : Parser α} {Q : α → Prop}

theorem gather_eq_ok {scope : Scope} {s t : State} {r : α × List Item}
    (h : gather p scope s = .ok (r, t)) : ∃ u, p scope { s with found := [] } = .ok (r.1, u) ∧
      r.2 = u.found.reverse ∧ t = { u with found := s.found } := by
  unfold gather at h
  split at h
  · rename_i a u hrun
    cases h
    exact ⟨u, hrun, rfl, rfl⟩
  · cases h

/-- What is gathered is put aside, and so nothing is recorded. -/
theorem Moves.gathered {s u : State} (h : Moves { s with found := [] } u) : Moves s { u with found := s.found } where
  trail := ((Relation.ReflTransGen.single (.record s [])).trans h.trail).tail (.record u _)
  placed := h.placed
  keeps := List.suffix_rfl

theorem State.Covered.gathered {s u : State} (h : State.Covered text s { u with found := s.found }) :
    State.Covered text { s with found := [] } u := h.mono (.inl rfl) (.inl rfl)

instance [hp : SteadyIn source p] : SteadyIn source (gather p) where
  moves {scope s r t} hs h := by
    obtain ⟨u, hrun, -, rfl⟩ := gather_eq_ok h
    have hmoves := hp.moves (s := { s with found := [] }) ⟨hs.placed, hs.suffix⟩ hrun
    exact ⟨hmoves.toMoves.gathered, id⟩

instance [SteadyIn source p] : SteadyIn source (unseen p) := by
  unfold unseen
  infer_instance

theorem Gives.gather (h : Gives text p Q) : Gives text (gather p) fun r => Q r.1 where
  moves {scope s r t} hs hgather := by
    obtain ⟨u, hrun, -, rfl⟩ := gather_eq_ok hgather
    exact (h.moves (s := { s with found := [] }) hs hrun).gathered
  holds {scope s r t} hs hgather hcovered := by
    obtain ⟨u, hrun, -, rfl⟩ := gather_eq_ok hgather
    exact h.holds (s := { s with found := [] }) hs hrun hcovered.gathered

instance Gives.unseen [h : Gives text p Q] : Gives text (unseen p) Q := .map h.gather

/-- What is gathered is sound, too. -/
theorem SteadyIn.bind_gather {f : α × List Item → Parser β} [hp : SteadyIn source p] (hP : Gives source p Q)
    (hf : ∀ r, Q r.1 → ItemsSound source r.2 → SteadyIn source (f r)) : SteadyIn source (gather p >>= f) where
  moves {scope s b t} hs h := by
    obtain ⟨r, u, hgather, hrest⟩ := bind_eq_ok.mp h
    have hmoves := SteadyIn.moves hs hgather
    have hr := hP.gather.holds hs.placed hgather (hs.covered u)
    obtain ⟨v, hrun, hitems, -⟩ := gather_eq_ok hgather
    have hinner := hp.moves (s := { s with found := [] }) ⟨hs.placed, hs.suffix⟩ hrun
    have hsteady := hf r hr (hitems ▸ (hinner.sound itemsSound_nil).reverse)
    exact hmoves.trans (hsteady.moves (hmoves.placedIn hs) hrest)

end Gather

/-- The results of the reader from this state lie on its trail. -/
structure SteadyAt (s : State) (p : Parser α) : Prop where
  moves : ∀ {source scope a t}, s.PlacedIn source → p scope s = .ok (a, t) → MovesIn source s t

section SteadyAt
variable {s : State} {p q : Parser α} {f : α → Parser β}

theorem SteadyAt.of_steady [h : Steady p] : SteadyAt s p := ⟨fun {source} => (h source).moves⟩

theorem Steady.get_bind {f : State → Parser β} (h : ∀ s, SteadyAt s (f s)) : Steady (get >>= f) :=
  fun _ => ⟨fun {_ s _ _} hs hrun => (h s).moves hs hrun⟩

theorem SteadyAt.bind (hp : SteadyAt s p) [hf : ∀ a, Steady (f a)] : SteadyAt s (p >>= f) where
  moves {source _ _ _} hs h := by
    obtain ⟨a, u, hrun, hrest⟩ := bind_eq_ok.mp h
    have hmoves := hp.moves hs hrun
    exact hmoves.trans ((hf a source).moves (hmoves.placedIn hs) hrest)

theorem SteadyAt.ite {c : Prop} [Decidable c] (hp : c → SteadyAt s p) (hq : ¬ c → SteadyAt s q) :
    SteadyAt s (if c then p else q) := by
  split
  · exact hp ‹_›
  · exact hq ‹_›

/-- Reading without taking anything leaves the state as it is. -/
theorem SteadyAt.look_bind (hp : ∀ {scope a t}, p scope s = .ok (a, t) → t = s)
    (hf : ∀ a, SteadyAt s (f a)) : SteadyAt s (p >>= f) where
  moves hs h := by
    obtain ⟨a, u, hrun, hrest⟩ := bind_eq_ok.mp h
    obtain rfl := hp hrun
    exact (hf a).moves hs hrest

/-- A look at the current token leaves the state as it is. -/
theorem SteadyAt.atMark_bind {mark : String} {f : Bool → Parser β}
    (h : SteadyAt s (f (s.token.isMark mark))) : SteadyAt s (atMark mark >>= f) := ⟨h.moves⟩

theorem SteadyAt.atKind_bind {kind : TokenKind} {f : Bool → Parser β}
    (h : SteadyAt s (f (s.token.kind == kind))) : SteadyAt s (atKind kind >>= f) := ⟨h.moves⟩

/-- A mark that is not there leaves the state as it is. -/
theorem SteadyAt.accept_bind {mark : String} {f : Bool → Parser β} (htrue : Steady (f true))
    (hfalse : SteadyAt s (f false)) : SteadyAt s (accept mark >>= f) where
  moves {source scope b t} hs h := by
    cases hmark : s.token.isMark mark with
    | true =>
      rw [bind_of_ok (accept_of_isMark hmark)] at h
      have hnext : MovesIn source s s.next := .of_step (.token s) rfl rfl
      exact hnext.trans ((htrue source).moves (hnext.placedIn hs) h)
    | false =>
      rw [bind_of_ok (accept_of_not_isMark hmark)] at h
      exact hfalse.moves hs h

end SteadyAt

end DeclSchema.Syntax
