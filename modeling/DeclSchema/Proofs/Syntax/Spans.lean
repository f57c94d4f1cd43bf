import DeclSchema.Proofs.Syntax.SteadyTypes
import DeclSchema.Proofs.Syntax.Tokens
import DeclSchema.Proofs.Text.Trim

/-! # What a reader passes

Between two places of a reader lies a stretch of the source. Stretches that follow on one another
append, and behind the last token of a stretch there is only a gap.
-/
namespace DeclSchema.Syntax
open Text

theorem Token.text_of_isMark {token : Token} {mark : String} (h : token.isMark mark = true) :
    token.text = mark.toList := eq_of_beq ((Bool.and_eq_true _ _).mp h).2

theorem Token.text_of_isWord {token : Token} {word : String} (h : token.isWord word = true) :
    token.text = word.toList := eq_of_beq ((Bool.and_eq_true _ _).mp h).2

namespace State
variable {s t u v : State}

def till (s u : State) : List Char := s.here.take (u.offset - s.offset)

def upTo (s u : State) : List Char := s.here.take (u.stop - s.offset)

theorem toList_textTo (s t : State) : (s.textTo t).toList = trim (s.upTo t) := by
  rw [textTo, String.toList_ofList, upTo]

theorem trim_textTo (s t : State) : trim (s.textTo t).toList = (s.textTo t).toList := by
  rw [toList_textTo, trim_trim]

theorem Reaches.till_trans (hsu : s.Reaches u) (huv : u.Reaches v) : s.till v = s.till u ++ u.till v := by
  have hs := hsu.offset_le
  have hu := huv.offset_le
  rw [till, till, till, hsu.here, ← List.take_add]
  congr 1
  omega

theorem Reaches.upTo_trans (hsu : s.Reaches u) (huv : u.Ahead v) : s.upTo v = s.till u ++ u.upTo v := by
  have hs := hsu.offset_le
  have hu := huv.offset_le_stop
  rw [upTo, till, upTo, hsu.here, ← List.take_add]
  congr 1
  omega

theorem Ahead.exists_till (h : s.Ahead u) : ∃ gap, Filler [] gap ∧ s.till u = s.upTo u ++ gap := by
  refine ⟨_, h.gap, ?_⟩
  have hs := h.offset_le_stop
  have hu := h.stop_le_offset
  rw [till, upTo, ← List.take_add]
  congr 1
  omega

theorem Placed.upTo_next (h : s.Placed) : s.upTo s.next = s.token.text := by
  have htoken : s.token.text ++ (readToken s.here).2 = s.here := by
    rw [h, readToken_append]
  rw [upTo, show s.next.stop - s.offset = s.token.text.length from Nat.add_sub_cancel_left _ _, ← htoken,
    List.take_left]

/-- A token and the gap behind it. -/
theorem Placed.till_next (h : s.Placed) : ∃ gap, Filler [] gap ∧ s.till s.next = s.token.text ++ gap := by
  obtain ⟨gap, hgap, htill⟩ := s.ahead_next.exists_till
  exact ⟨gap, hgap, by rw [htill, h.upTo_next]⟩

/-- Up to the end of a token further on, the text ends with that token. -/
theorem Reaches.upTo_next (h : s.Reaches u) (hu : u.Placed) : s.upTo u.next = s.till u ++ u.token.text := by
  rw [h.upTo_trans u.ahead_next, hu.upTo_next]

theorem Reaches.endsWith_textTo (h : s.Reaches u) (hu : u.Placed) {c : Char}
    (hlast : u.token.text.getLast? = some c) (hc : isBlank c = false) : EndsWith (s.textTo u.next) c := by
  rw [EndsWith, toList_textTo, h.upTo_next hu]
  apply getLast?_trim hc
  rw [List.getLast?_append, hlast]
  rfl

theorem Placed.textTo_next (h : s.Placed) : s.textTo s.next = String.ofList (trim s.token.text) := by
  rw [← String.toList_inj, toList_textTo, h.upTo_next, String.toList_ofList]

/-- What a token has in it is in the text up to any place behind it. -/
theorem Reaches.mem_textTo (hsu : s.Reaches u) (hu : u.Placed) (hut : u.next.Reaches t) {c : Char}
    (hc : c ∈ u.token.text) (hblank : isBlank c = false) : c ∈ (s.textTo t).toList := by
  have htext : c ∈ s.upTo t := by
    rcases hut with hsame | hahead
    · rw [show s.upTo t = s.upTo u.next by rw [hsame]; rfl, hsu.upTo_next hu]
      exact List.mem_append_right _ hc
    · rw [(hsu.trans u.reaches_next).upTo_trans hahead, hsu.till_trans u.reaches_next]
      obtain ⟨gap, -, htill⟩ := hu.till_next
      rw [htill]
      exact List.mem_append_left _ (List.mem_append_right _ (List.mem_append_left _ hc))
  rw [toList_textTo]
  exact mem_trim htext hblank

end State

/-- What stands between two places is in the text that begins and ends there. -/
theorem State.covered_textTo (s t : State) : State.Covered (s.textTo t).toList s t := by
  intro u v hsu huv hvt
  rw [State.toList_textTo, State.toList_textTo]
  refine (trimmed_trim _).infix_trim ((trim_isInfix _).trans ?_)
  rcases hvt with hsame | hahead
  · rw [show s.upTo t = s.upTo v by rw [hsame]; rfl, hsu.upTo_trans huv]
    exact (List.suffix_append _ _).isInfix
  · rw [(hsu.trans (.inr huv)).upTo_trans hahead, hsu.till_trans (.inr huv)]
    obtain ⟨gap, -, htill⟩ := huv.exists_till
    rw [htill]
    exact ⟨s.till u, gap ++ v.upTo t, by simp only [List.append_assoc]⟩

/-- Up to the next token, the text of a type stands between white space and a gap. -/
theorem Spans.exists_till {s t : State} {type : TypeNode} (h : Spans s t type) :
    ∃ front back, AllBlank front ∧ Filler [] back ∧ s.till t = front ++ (type.text.toList ++ back) := by
  obtain ⟨gap, hgap, htill⟩ := h.ahead.exists_till
  obtain ⟨front, back, hfront, hback, hupTo⟩ := exists_blank_trim (s.upTo t)
  refine ⟨front, back ++ gap, hfront, (Filler.of_blank hback).append hgap, ?_⟩
  rw [htill, hupTo, h.text, State.toList_textTo]
  simp only [List.append_assoc]

class Advances {α : Type} (p : Parser α) : Prop where
  ahead : ∀ {scope s a t}, s.Placed → p scope s = .ok (a, t) → s.Ahead t

section Advances
variable {α β γ : Type} {p q : Parser α}

/-- A first reader that takes something is enough. -/
theorem Advances.first {f : α → Parser β} [hp : Advances p] [Steady p] (hf : ∀ a, Steady (f a)) :
    Advances (p >>= f) where
  ahead hs h := by
    obtain ⟨a, u, hrun, hrest⟩ := bind_eq_ok.mp h
    exact (hp.ahead hs hrun).reaches ((hf a).moves (Steady.moves hs hrun).placed hrest).reaches

theorem Advances.rest {f : α → Parser β} [hp : Steady p] (hf : ∀ a, Advances (f a)) : Advances (p >>= f) where
  ahead hs h := by
    obtain ⟨a, u, hrun, hrest⟩ := bind_eq_ok.mp h
    have hmoves := hp.moves hs hrun
    exact hmoves.reaches.ahead ((hf a).ahead hmoves.placed hrest)

instance (priority := high) {f : α → Parser β} [Advances p] [Steady p] [hf : ∀ a, Steady (f a)] :
    Advances (p >>= f) := .first hf

instance (priority := high) {q : Parser β} [Advances p] [Steady p] [hq : Steady q] : Advances (p >>= fun _ => q) :=
  .first fun _ => hq

instance {f : α → Parser β} [Steady p] [hf : ∀ a, Advances (f a)] : Advances (p >>= f) := .rest hf

instance (priority := high) {q : Parser β} [Steady p] [hq : Advances q] : Advances (p >>= fun _ => q) :=
  .rest fun _ => hq

/-- A mark that is seen is taken. -/
instance (priority := high) {mark : String} [hp : Steady p] [hq : Advances q] :
    Advances (do if ← accept mark then p else q) where
  ahead {scope s a t} hs h := by
    cases hmark : s.token.isMark mark with
    | true =>
      rw [bind_of_ok (accept_of_isMark hmark)] at h
      exact s.ahead_next.reaches (hp.moves s.ahead_next.placed h).reaches
    | false =>
      rw [bind_of_ok (accept_of_not_isMark hmark)] at h
      exact hq.ahead hs h

instance {c : Prop} [Decidable c] [hp : Advances p] [hq : Advances q] : Advances (if c then p else q) := by
  split
  · exact hp
  · exact hq

instance (priority := high) {c : α → Prop} [∀ a, Decidable (c a)] {q r : Parser β} [Steady p] [Advances q]
    [Advances r] : Advances (p >>= fun a => if c a then q else r) :=
  .rest fun _ => inferInstance

instance (priority := high) {c : α → Prop} [∀ a, Decidable (c a)] {q : Parser β} {rest : Parser γ} [Steady p]
    [Steady q] [Advances rest] : Advances (p >>= fun a => if c a then q >>= fun _ => rest else rest) :=
  .rest fun _ => inferInstance

instance [hp : Advances p] : Advances (discard p : Parser Unit) where
  ahead hs h := by
    obtain ⟨a, hrun, -⟩ := map_eq_ok.mp h
    exact hp.ahead hs hrun

instance {f : α → β} [hp : Advances p] : Advances (f <$> p) where
  ahead hs h := by
    obtain ⟨a, hrun, -⟩ := map_eq_ok.mp h
    exact hp.ahead hs hrun

instance [hp : Advances p] [hq : Advances q] : Advances (either p q) where
  ahead hs h := (either_eq_ok h).elim (hp.ahead hs) (hq.ahead hs)

instance {q : Parser β} [hp : Advances p] : Advances (blaming p q) where
  ahead hs h := hp.ahead hs (blaming_eq_ok h)

instance : Advances take where
  ahead _ h := by
    obtain ⟨-, -, rfl⟩ := take_eq_ok h
    exact State.ahead_next _

instance (fault : Fault) : Advances (throw fault : Parser α) where
  ahead _ h := by cases h

instance : Advances (stuck : Parser α) := by
  unfold stuck
  infer_instance

instance (what : String) : Advances (missing what : Parser α) := by
  unfold missing
  infer_instance

instance : Advances (brokenString : Parser α) := by
  dsimp only [brokenString, unclosed]
  infer_instance

instance (mark : String) : Advances (expect mark) := by
  unfold expect
  infer_instance

instance (priority := high) {word : String} [hp : Steady p] [hq : Advances q] :
    Advances (do if ← acceptWord word then p else q) where
  ahead {scope s a t} hs h := by
    rw [acceptWord_bind] at h
    cases hword : s.token.isWord word with
    | true =>
      rw [hword] at h
      exact s.ahead_next.reaches (hp.moves s.ahead_next.placed h).reaches
    | false =>
      rw [hword] at h
      exact hq.ahead hs h

instance (word : String) : Advances (expectWord word) := by
  unfold expectWord
  infer_instance

instance : Advances anyWord := by
  unfold anyWord
  infer_instance

variable {g : Grammar} [hg : g.Steady]

instance : Advances (functionTypeHead g) := by
  unfold functionTypeHead
  infer_instance

instance : Advances (typeMembers g) := by
  dsimp only [typeMembers]
  infer_instance

instance : Advances qualifiedName := by
  unfold qualifiedName
  infer_instance

instance : Advances (typeQuery g) := by
  dsimp only [typeQuery]
  refine .rest fun word => .rest fun mark => ?_
  split <;> infer_instance

instance : Advances (innerType g) := by
  unfold innerType
  infer_instance

instance : Advances (functionHeadOr g) := by
  unfold functionHeadOr
  infer_instance

instance : Advances (parenthesizedType g) := by
  dsimp only [parenthesizedType]
  refine .rest fun start => .first fun inner => ?_
  cases inner <;> dsimp only <;> infer_instance

instance : Advances (wordType g) := by
  dsimp only [wordType]
  refine .rest fun start => .rest fun second => ?_
  split <;> infer_instance

instance : Advances (primaryType g) := by
  dsimp only [primaryType]
  refine .rest fun start => ?_
  split
  case h_5 =>
    constructor
    intro scope s a t hs h
    obtain ⟨_, u, hparts, h⟩ := bind_eq_ok.mp h
    obtain ⟨hahead, -⟩ := templateParts_onward ⟨hs, List.suffix_rfl⟩ hparts
    cases h
    exact hahead
  all_goals infer_instance

instance : Advances (Syntax.typeOperand g) := by
  dsimp only [Syntax.typeOperand]
  refine .rest fun start => ?_
  infer_instance

instance (mark : String) (p : Parser TypeNode) [Steady p] [Advances p] : Advances (typeRow mark p) := by
  dsimp only [typeRow]
  infer_instance

instance : Advances (intersectionType g) := by
  dsimp only [intersectionType]
  refine .rest fun start => .first fun row => ?_
  split <;> infer_instance

instance : Advances (unionType g) := by
  dsimp only [unionType]
  refine .rest fun start => .first fun row => ?_
  split <;> infer_instance

instance : Advances (anyType g) := by
  dsimp only [anyType]
  infer_instance

end Advances

/-- From the second place on, the reader gives types with the text that the first one begins. -/
class TextFrom (start s : State) (p : Parser TypeNode) : Prop where
  text : ∀ {scope type t}, s.Placed → p scope s = .ok (type, t) → type.text = start.textTo t

theorem Spanning.of_text {p : Parser TypeNode} [hp : Advances p] (h : ∀ s, TextFrom s s p) : Spanning p where
  spans hs hrun := ⟨hp.ahead hs hrun, (h _).text hs hrun⟩

section TextFrom
variable {α : Type} {start s : State} {p q : Parser TypeNode}

theorem TextFrom.pure {type : TypeNode} (h : type.text = start.textTo s) : TextFrom start s (pure type) where
  text _ hrun := by
    cases hrun
    exact h

instance : TextFrom start s (pure (.other (start.textTo s))) := .pure rfl

instance (name : String) (args : List TypeNode) :
    TextFrom start s (pure (.reference (start.textTo s) name args)) := .pure rfl

instance (value : Literal) : TextFrom start s (pure (.literal (start.textTo s) value)) := .pure rfl

instance (members : List Member) : TextFrom start s (pure (.object (start.textTo s) members)) := .pure rfl

instance (elements : List TypeNode) : TextFrom start s (pure (.tuple (start.textTo s) elements)) := .pure rfl

instance (inner : TypeNode) : TextFrom start s (pure (.parenthesized (start.textTo s) inner)) := .pure rfl

instance (fault : Fault) : TextFrom start s (throw fault) where
  text _ hrun := by cases hrun

instance [hp : Spanning p] : TextFrom s s p where
  text hs hrun := (hp.spans hs hrun).text

theorem TextFrom.bind {f : α → Parser TypeNode} {p : Parser α} [hp : Steady p]
    (hf : ∀ a u, TextFrom start u (f a)) : TextFrom start s (p >>= f) where
  text hs hrun := by
    obtain ⟨a, u, hfirst, hrest⟩ := bind_eq_ok.mp hrun
    exact (hf a u).text (hp.moves hs hfirst).placed hrest

instance {f : α → Parser TypeNode} {p : Parser α} [Steady p] [hf : ∀ a u, TextFrom start u (f a)] :
    TextFrom start s (p >>= f) := .bind hf

instance (priority := high) {q : Parser TypeNode} {p : Parser α} [Steady p] [hq : ∀ u, TextFrom start u q] :
    TextFrom start s (p >>= fun _ => q) := .bind fun _ => hq

instance {c : Prop} [Decidable c] [hp : TextFrom start s p] [hq : TextFrom start s q] :
    TextFrom start s (if c then p else q) := by
  split
  · exact hp
  · exact hq

-- A look at what stands here leaves the state as it is.
theorem TextFrom.get_bind {f : State → Parser TypeNode} (h : TextFrom start s (f s)) :
    TextFrom start s (get >>= f) := ⟨h.text⟩

theorem TextFrom.following_bind {f : Token → Parser TypeNode} (h : TextFrom start s (f s.next.token)) :
    TextFrom start s (following >>= f) := ⟨h.text⟩

instance (priority := high) {f : State → Parser TypeNode} [h : TextFrom start s (f s)] :
    TextFrom start s (get >>= f) := .get_bind h

instance (priority := high) {f : Token → Parser TypeNode} [h : TextFrom start s (f s.next.token)] :
    TextFrom start s (following >>= f) := .following_bind h

instance (priority := high) {f : String → Parser TypeNode} [h : TextFrom start s (f (start.textTo s))] :
    TextFrom start s ((do return start.textTo (← get) : Parser String) >>= f) := ⟨h.text⟩

instance (priority := high) {f : Bool → Parser TypeNode} {mark : String}
    [h : TextFrom start s (f (s.token.isMark mark))] : TextFrom start s (atMark mark >>= f) := ⟨h.text⟩

instance (priority := high) {f : Bool → Parser TypeNode}
    [h : TextFrom start s (f (s.token.isMark "(" || s.token.isMark "<"))] :
    TextFrom start s (atSignature >>= f) := ⟨h.text⟩

/-- A mark that is not there leaves the state as it is, too. -/
instance (priority := high) {mark : String} [hp : ∀ u, TextFrom start u p] [hq : TextFrom start s q] :
    TextFrom start s (do if ← accept mark then p else q) where
  text hs hrun := by
    rw [accept_bind] at hrun
    cases hmark : s.token.isMark mark with
    | true =>
      rw [hmark] at hrun
      exact (hp s.next).text s.ahead_next.placed hrun
    | false =>
      rw [hmark] at hrun
      exact hq.text hs hrun

instance : TextFrom start s stuck := by
  unfold stuck
  infer_instance

instance : TextFrom start s brokenString := by
  dsimp only [brokenString, unclosed]
  infer_instance

variable {g : Grammar} [hg : g.Steady]

instance : Spanning (parenthesizedType g) := by
  refine .of_text fun s => ?_
  dsimp only [parenthesizedType]
  refine .get_bind (.bind fun inner u => ?_)
  cases inner <;> dsimp only <;> infer_instance

instance : Spanning (wordType g) := by
  refine .of_text fun s => ?_
  dsimp only [wordType]
  refine .get_bind (.following_bind ?_)
  split <;> infer_instance

instance : Spanning (primaryType g) := by
  refine .of_text fun s => ?_
  dsimp only [primaryType]
  refine .get_bind ?_
  split
  case h_5 =>
    constructor
    intro scope type t hs h
    obtain ⟨_, u, hparts, h⟩ := bind_eq_ok.mp h
    cases h
    rfl
  all_goals infer_instance

end TextFrom

end DeclSchema.Syntax
