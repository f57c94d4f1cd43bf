import DeclSchema.Proofs.Syntax.Names

/-! # How the readers of types weave their texts

The text of a type is what its reader passes, and the reader passes the parts of the type one after
another, with marks and gaps between them.
-/
namespace DeclSchema.Syntax
open Text

variable {scope : Scope} {start s t u v : State} {c : Char} {mark text name : String}
  {type element inner arg first : TypeNode} {types : List TypeNode}

/-- A mark of one character and the gap behind it. -/
theorem State.Placed.till_mark (hs : s.Placed) (h : s.token.isMark mark = true) (hmark : mark.toList = [c]) :
    ∃ gap, Filler [] gap ∧ s.till s.next = c :: gap := by
  obtain ⟨gap, hgap, htill⟩ := hs.till_next
  exact ⟨gap, hgap, by rw [htill, Token.text_of_isMark h, hmark]; rfl⟩

theorem State.Reaches.upTo_mark (h : s.Reaches u) (hu : u.Placed) (htoken : u.token.isMark mark = true)
    (hmark : mark.toList = [c]) : s.upTo u.next = s.till u ++ [c] := by
  rw [h.upTo_next hu, Token.text_of_isMark htoken, hmark]

theorem woven_array (hspans : Spans start u element) (hu : u.Placed) (hopen : u.token.isMark "[" = true)
    (hclose : u.next.token.isMark "]" = true) (hunion : element.isUnion = false) :
    (TypeNode.array (start.textTo u.next.next) element).Woven := by
  obtain ⟨front, back, hfront, hback, htill⟩ := hspans.exists_till
  obtain ⟨gap, hgap, hmark⟩ := hu.till_mark (c := '[') hopen rfl
  have hreach := State.Reaches.trans (.inr hspans.ahead) u.reaches_next
  refine ⟨hunion, front, back, gap, hfront, hback, hgap, ?_⟩
  rw [State.toList_textTo, hreach.upTo_mark (c := ']') u.ahead_next.placed hclose rfl,
    State.Reaches.till_trans (.inr hspans.ahead) u.reaches_next, htill, hmark]
  simp only [List.append_assoc, List.cons_append]

theorem woven_parenthesized (hs : s.Placed) (hopen : s.token.isMark "(" = true)
    (hspans : Spans s.next u inner) (hu : u.Placed) (hclose : u.token.isMark ")" = true) :
    (TypeNode.parenthesized (s.textTo u.next) inner).Woven := by
  obtain ⟨front, back, hfront, hback, htill⟩ := hspans.exists_till
  obtain ⟨gap, hgap, hmark⟩ := hs.till_mark (c := '(') hopen rfl
  have hreach := s.reaches_next.trans (.inr hspans.ahead)
  refine ⟨gap ++ front, back, hgap.append (.of_blank hfront), hback, ?_⟩
  have hsolid : trim ('(' :: (gap ++ front ++ (inner.text.toList ++ (back ++ [')'])))) =
      '(' :: (gap ++ front ++ (inner.text.toList ++ (back ++ [')']))) :=
    trim_solid (c := '(') (d := ')') rfl (by simp [List.getLast?_cons]) (by decide)
  rw [State.toList_textTo, hreach.upTo_mark (c := ')') hu hclose rfl,
    s.reaches_next.till_trans (.inr hspans.ahead), htill, hmark, ← hsolid]
  simp only [List.append_assoc, List.cons_append]

/-- The text up to the second place is a row of these types, in front of which something may stand. -/
def Rows (c : Char) (s t : State) (types : List TypeNode) : Prop :=
  s.Ahead t ∧ ∃ front row, Filler [c] front ∧ Row (Between c) (types.map (·.text.toList)) row ∧
    s.upTo t = front ++ row

theorem Rows.single (h : Spans s t type) : Rows c s t [type] := by
  obtain ⟨front, back, hfront, hback, hupTo⟩ := exists_blank_trim (s.upTo t)
  refine ⟨h.ahead, front, trim (s.upTo t) ++ back, .of_blank hfront, ?_, by rw [← List.append_assoc, ← hupTo]⟩
  rw [← State.toList_textTo, ← h.text]
  exact .last hback

structure MarkedRow (c : Char) (s t : State) (types : List TypeNode) : Prop where
  ahead : s.Ahead t
  woven : ∃ front row, Filler [c] front ∧ Row (Between c) (types.map (·.text.toList)) row ∧
    (c ∈ front ∨ types.length ≠ 1) ∧ s.upTo t = front ++ row

/-- Marks in front of a row belong to it. -/
theorem Rows.marked (hsu : s.Reaches u) (hmarks : Between c (s.till u)) (h : Rows c u t types) :
    MarkedRow c s t types := by
  obtain ⟨hahead, front, row, hfront, hrow, hupTo⟩ := h
  have htext : s.upTo t = s.till u ++ front ++ row := by rw [hsu.upTo_trans hahead, hupTo, List.append_assoc]
  have hmem := List.mem_append_left front hmarks.2
  exact ⟨hsu.ahead hahead, s.till u ++ front, row, hmarks.1.append hfront, hrow, .inl hmem, htext⟩

theorem Rows.cons (hfirst : Spans s u first) (huv : u.Reaches v) (hbetween : Between c (u.till v))
    (h : Rows c v t types) : Rows c s t (first :: types) := by
  obtain ⟨hahead, front, row, hfront, hrow, hupTo⟩ := h
  obtain ⟨before, back, hbefore, hback, htill⟩ := hfirst.exists_till
  have hreach := State.Reaches.trans (.inr hfirst.ahead) huv
  refine ⟨hreach.ahead hahead, before, first.text.toList ++ (back ++ u.till v ++ front ++ row), .of_blank hbefore,
    .more ⟨?_, ?_⟩ hrow, ?_⟩
  · exact ((hback.mono (List.nil_subset _)).append hbetween.1).append hfront
  · simp [hbetween.2]
  · rw [hreach.upTo_trans hahead, hupTo, State.Reaches.till_trans (.inr hfirst.ahead) huv, htill]
    simp only [List.append_assoc]

/-- What stands before the angle bracket is the name, and a comma may follow on the arguments. -/
theorem woven_applied (hname : s.Ahead u) (hnamed : Named (s.upTo u)) (hu : u.Placed)
    (hopen : u.token.isMark "<" = true) (hrows : Rows ',' u.next v types) (hvt : v.Reaches t)
    (hback : Filler [','] (v.till t)) (ht : t.Placed) (hclose : t.token.isMark ">" = true) :
    TypeNode.Applied (s.textTo t.next).toList (s.textTo u).toList (types.map (·.text.toList)) := by
  have hspans : Spans s u (.other (s.textTo u)) := ⟨hname, rfl⟩
  obtain ⟨before, gap, hbefore, hgap, htillName⟩ := hspans.exists_till
  obtain ⟨inside, hinside, hmark⟩ := hu.till_mark (c := '<') hopen rfl
  obtain ⟨hahead, front, row, hfront, hrow, hupTo⟩ := hrows
  obtain ⟨behind, hbehind, htillArgs⟩ := hahead.exists_till
  have hreach := State.Reaches.trans (.inr hname) u.reaches_next
  have hreachArgs := hreach.trans (.inr hahead)
  refine ⟨s.trim_textTo u, ?_, before, gap, inside ++ front, row, behind ++ v.till t, hbefore, hgap, ?_, hrow,
    (hbehind.mono (List.nil_subset _)).append hback, ?_⟩
  · rw [State.toList_textTo]
    exact hnamed.trim
  · exact (hinside.mono (List.nil_subset _)).append hfront
  · rw [State.toList_textTo, (hreachArgs.trans hvt).upTo_mark (c := '>') ht hclose rfl, hreachArgs.till_trans hvt,
      hreach.till_trans (.inr hahead), State.Reaches.till_trans (.inr hname) u.reaches_next, htillName, hmark,
      htillArgs, hupTo]
    simp only [TypeNode.text, List.append_assoc, List.cons_append]

section Readers
variable {p : Parser TypeNode} [hsteady : Steady p] [hp : Spanning p] {all : List Unit}

/-- The marks between two types, which may be repeated. -/
theorem marks_run (hmark : mark.toList = [c]) (hs : s.Placed)
    (h : many (do if ← accept mark then return some () else return none) scope s = .ok (all, t)) :
    (all = [] ∧ t = s) ∨ (all ≠ [] ∧ s.Ahead t ∧ Between c (s.till t)) := by
  refine many_invariant (I := fun s all t => s.Placed →
    (all = [] ∧ t = s) ∨ (all ≠ [] ∧ s.Ahead t ∧ Between c (s.till t))) ?_ ?_ h hs
  · intro s t hone _
    rw [accept_bind] at hone
    cases htoken : s.token.isMark mark with
    | true =>
      rw [htoken] at hone
      cases hone
    | false =>
      rw [htoken] at hone
      cases hone
      exact .inl ⟨rfl, rfl⟩
  · intro s a u rest t hone hrest hs
    rw [accept_bind] at hone
    cases htoken : s.token.isMark mark with
    | false =>
      rw [htoken] at hone
      cases hone
    | true =>
      rw [htoken] at hone
      cases hone
      obtain ⟨gap, hgap, htill⟩ := hs.till_mark htoken hmark
      have hone : Between c (s.till s.next) := by
        refine ⟨?_, by rw [htill]; exact List.mem_cons_self⟩
        rw [htill]
        exact Filler.append (.of_mark List.mem_cons_self) (hgap.mono (List.nil_subset _))
      refine .inr ⟨List.cons_ne_nil _ _, ?_⟩
      rcases hrest s.ahead_next.placed with ⟨-, rfl⟩ | ⟨-, hahead, hbetween⟩
      · exact ⟨s.ahead_next, hone⟩
      · refine ⟨s.ahead_next.trans hahead, ?_⟩
        rw [s.reaches_next.till_trans (.inr hahead)]
        exact ⟨hone.1.append hbetween.1, List.mem_append_left _ hone.2⟩

/-- What follows on a type in a row: nothing, or marks with a row of types behind them. -/
structure RowTail (c : Char) (s t : State) (types : List TypeNode) : Prop where
  cases : (types = [] ∧ t = s) ∨ (types ≠ [] ∧ ∃ u, s.Reaches u ∧ Between c (s.till u) ∧ Rows c u t types)

theorem RowTail.nil (s : State) : RowTail c s s [] := ⟨.inl ⟨rfl, rfl⟩⟩

theorem RowTail.rows (hfirst : Spans s u first) (h : RowTail c u t types) : Rows c s t (first :: types) := by
  rcases h.cases with ⟨rfl, rfl⟩ | ⟨-, v, hv, hbetween, hrows⟩
  · exact .single hfirst
  · exact .cons hfirst hv hbetween hrows

theorem RowTail.cons (hsu : s.Reaches u) (hbetween : Between c (s.till u)) (hfirst : Spans u v first)
    (h : RowTail c v t types) : RowTail c s t (first :: types) :=
  ⟨.inr ⟨List.cons_ne_nil _ _, u, hsu, hbetween, h.rows hfirst⟩⟩

/-- A row with marks is woven; without them it is one type. -/
theorem typeRow_run {marked : Bool} (hmark : mark.toList = [c]) (hs : s.Placed)
    (h : typeRow mark p scope s = .ok ((types, marked), t)) :
    (∃ only, types = [only] ∧ marked = false ∧ p scope s = .ok (only, t)) ∨
      (marked = true ∧ MarkedRow c s t types) := by
  dsimp only [typeRow] at h
  obtain ⟨leading, u, hleading, h⟩ := bind_eq_ok.mp h
  obtain ⟨first, v, hfirst, h⟩ := bind_eq_ok.mp h
  obtain ⟨more, w, hmore, h⟩ := bind_eq_ok.mp h
  cases h
  have hu : u.Placed := (Steady.moves hs hleading).placed
  have hv : v.Placed := (Steady.moves hu hfirst).placed
  have hspans := hp.spans hu hfirst
  have htail : RowTail c v t more := by
    refine many_invariant (I := fun v more w => v.Placed → RowTail c v w more) ?_ ?_ hmore hv
    · intro v w hone hv
      obtain ⟨marks, x, hmarks, hend⟩ := bind_eq_ok.mp hone
      rcases marks_run hmark hv hmarks with ⟨rfl, rfl⟩ | ⟨hne, -, -⟩
      · cases hend
        exact .nil _
      · rw [if_neg (by simpa using hne)] at hend
        obtain ⟨_, _, -, hsome⟩ := bind_eq_ok.mp hend
        cases hsome
    · intro v next y rest w hone hrest hv
      obtain ⟨marks, x, hmarks, hend⟩ := bind_eq_ok.mp hone
      rcases marks_run hmark hv hmarks with ⟨rfl, rfl⟩ | ⟨hne, hahead, hbetween⟩
      · cases hend
      · rw [if_neg (by simpa using hne)] at hend
        obtain ⟨_, _, hnext, hsome⟩ := bind_eq_ok.mp hend
        cases hsome
        have hx : x.Placed := (Steady.moves hv hmarks).placed
        exact .cons (.inr hahead) hbetween (hp.spans hx hnext) (hrest (Steady.moves hx hnext).placed)
  have hrows := htail.rows hspans
  rcases marks_run hmark hs hleading with ⟨rfl, rfl⟩ | ⟨hne, hahead, hbetween⟩
  · rcases htail.cases with ⟨rfl, rfl⟩ | ⟨hne, -⟩
    · exact .inl ⟨first, rfl, rfl, hfirst⟩
    · obtain ⟨hahead, front, row, hfront, hrow, hupTo⟩ := hrows
      exact .inr ⟨by simp [hne], hahead, front, row, hfront, hrow, .inr (by simp [hne]), hupTo⟩
  · exact .inr ⟨by simp [hne], hrows.marked (.inr hahead) hbetween⟩

/-- The types of a list with commas are woven, and what stands behind them is a comma at most. -/
theorem commaList_run {close : String} (hs : s.Placed) (h : commaList close p scope s = .ok (types, t)) :
    ∃ u, Rows ',' s u types ∧ u.Reaches t ∧ Filler [','] (u.till t) := by
  obtain ⟨first, u, hfirst, h⟩ := bind_eq_ok.mp h
  obtain ⟨more, v, hmore, h⟩ := bind_eq_ok.mp h
  cases h
  have hnil (u : State) : Filler [','] (u.till u) := by
    rw [State.till, Nat.sub_self, List.take_zero]
    exact .of_blank fun _ hc => absurd hc List.not_mem_nil
  have hcomma {u : State} (hu : u.Placed) (hmark : u.token.isMark "," = true) : Between ',' (u.till u.next) := by
    obtain ⟨gap, hgap, htill⟩ := hu.till_mark hmark rfl
    rw [htill]
    exact ⟨Filler.append (.of_mark List.mem_cons_self) (hgap.mono (List.nil_subset _)), List.mem_cons_self⟩
  obtain ⟨w, htail, hreach, hback⟩ : ∃ w, RowTail ',' u w more ∧ w.Reaches t ∧ Filler [','] (w.till t) := by
    refine many_invariant (I := fun u more v => u.Placed →
      ∃ w, RowTail ',' u w more ∧ w.Reaches v ∧ Filler [','] (w.till v)) ?_ ?_ hmore (Steady.moves hs hfirst).placed
    · intro u v hone hu
      rw [accept_bind] at hone
      cases hmark : u.token.isMark "," with
      | false =>
        rw [hmark] at hone
        cases hone
        exact ⟨u, .nil u, u.reaches_self, hnil u⟩
      | true =>
        rw [hmark, if_pos rfl, if_pos rfl, atMark_bind] at hone
        split at hone
        · cases hone
          exact ⟨u, .nil u, u.reaches_next, (hcomma hu hmark).1⟩
        · obtain ⟨_, _, -, hsome⟩ := bind_eq_ok.mp hone
          cases hsome
    · intro u next v rest t hone hrest hu
      rw [accept_bind] at hone
      cases hmark : u.token.isMark "," with
      | false =>
        rw [hmark] at hone
        cases hone
      | true =>
        rw [hmark, if_pos rfl, if_pos rfl, atMark_bind] at hone
        split at hone
        · cases hone
        · obtain ⟨_, _, hnext, hsome⟩ := bind_eq_ok.mp hone
          cases hsome
          have hplaced := u.ahead_next.placed
          obtain ⟨w, htail, hreach, hback⟩ := hrest (Steady.moves hplaced hnext).placed
          exact ⟨w, .cons u.reaches_next (hcomma hu hmark) (hp.spans hplaced hnext) htail, hreach, hback⟩
  exact ⟨w, htail.rows (hp.spans hs hfirst), hreach, hback⟩

end Readers

def Foreign (c : Char) : Prop :=
  isBlank c = false ∧ ∀ p ∈ [Primitive.string, .number, .boolean], c ∉ p.name.toList

instance (c : Char) : Decidable (Foreign c) :=
  inferInstanceAs (Decidable (isBlank c = false ∧
    ∀ p ∈ [Primitive.string, .number, .boolean], c ∉ p.name.toList))

theorem ofName?_eq_none_of_mem (h : c ∈ text.toList) (hc : Foreign c) : Primitive.ofName? text = none := by
  cases hname : Primitive.ofName? text with
  | none => rfl
  | some p =>
    rw [Primitive.ofName?_eq_some hname] at h
    exact absurd h (hc.2 p (by cases p <;> simp))

class Others (start : State) (p : Parser TypeNode) : Prop where
  eq_other : ∀ {scope u type t}, p scope u = .ok (type, t) → type = .other (start.textTo t)

section Others
variable {α : Type} {p q : Parser TypeNode}

instance {p : Parser α} {f : α → Parser TypeNode} [hf : ∀ a, Others start (f a)] : Others start (p >>= f) where
  eq_other h := by
    obtain ⟨a, u, -, hrest⟩ := bind_eq_ok.mp h
    exact (hf a).eq_other hrest

instance (priority := high) : Others start (do return .other (start.textTo (← get))) where
  eq_other h := by
    cases h
    rfl

instance (priority := high) : Others start (do
    let text ← (do return start.textTo (← get) : Parser String)
    return .other text) where
  eq_other h := by
    cases h
    rfl

instance {c : Prop} [Decidable c] [hp : Others start p] [hq : Others start q] :
    Others start (if c then p else q) := by
  split
  · exact hp
  · exact hq

end Others

end DeclSchema.Syntax
