import DeclSchema.Text.Chars

/-! # Brackets in type text

Type text is split by counting brackets: round, angle, curly and square ones all nest,
and the `>` of an arrow is not a bracket. Quotes and comments are not looked at.
-/
namespace DeclSchema.TypeText

/-- By how much a character changes the nesting depth, given the character before it. -/
def depthChange (before : Option Char) (c : Char) : Int :=
  match c with
  | '(' | '<' | '{' | '[' => 1
  | '>' => if before == some '=' then 0 else -1
  | ')' | '}' | ']' => -1
  | _ => 0

/-- Splits at the separators that stand at depth zero, given the character before the text
and the depth it begins at. -/
def splitFrom (separator : Char) : Option Char → Int → List Char → List (List Char)
  | _, _, [] => [[]]
  | before, depth, c :: rest =>
    let change := depthChange before c
    let pieces := splitFrom separator (some c) (depth + change) rest
    if change == 0 && c == separator && depth == 0 then [] :: pieces
    else
      match pieces with
      | [] => [[c]]
      | piece :: more => (c :: piece) :: more

def splitTopLevel (separator : Char) (s : List Char) : List (List Char) :=
  splitFrom separator none 0 s

/-- No bracket closes below the depth the text begins at, and every one is closed. -/
def balancedFrom : Option Char → Int → List Char → Bool
  | _, depth, [] => depth == 0
  | before, depth, c :: rest =>
    let depth := depth + depthChange before c
    if depth < 0 then false else balancedFrom (some c) depth rest

def balanced (s : List Char) : Bool := balancedFrom none 0 s

theorem splitFrom_ne_nil (separator : Char) (before : Option Char) (depth : Int) (s : List Char) :
    splitFrom separator before depth s ≠ [] := by
  cases s with
  | nil => simp [splitFrom]
  | cons c rest =>
    unfold splitFrom
    dsimp only
    split
    · simp
    · split <;> simp

/-- No piece is longer than the text. -/
theorem length_le_of_mem_splitFrom {separator : Char} {before : Option Char} {depth : Int}
    {s piece : List Char} (h : piece ∈ splitFrom separator before depth s) :
    piece.length ≤ s.length := by
  induction s generalizing before depth piece with
  | nil => simp_all [splitFrom]
  | cons c rest ih =>
    unfold splitFrom at h
    dsimp only at h
    split at h
    · rcases List.mem_cons.mp h with rfl | h
      · simp
      · exact Nat.le_succ_of_le (ih h)
    · split at h
      · simp_all
      · rename_i first more hs
        rcases List.mem_cons.mp h with rfl | h
        · have := ih (hs ▸ List.mem_cons_self)
          simpa using this
        · exact Nat.le_succ_of_le (ih (hs ▸ List.mem_cons_of_mem _ h))

end DeclSchema.TypeText
