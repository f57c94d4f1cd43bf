/-! # Characters and character lists

Text is worked on as a list of characters. This module holds the character classes
that the formats share and the few list operations they are built from: trimming,
splitting, replacing and joining.
-/
namespace DeclSchema.Text

/-- What holds of all characters of a text is decided one character after another, not over
all characters there are. -/
instance (priority := high) decidableForallMem {P : Char → Prop} [DecidablePred P] (s : List Char) :
    Decidable (∀ c ∈ s, P c) := List.decidableBAll P s

instance (priority := high) decidableExistsMem {P : Char → Prop} [DecidablePred P] (c? : Option Char) :
    Decidable (∃ c ∈ c?, P c) := Option.decidableExistsMem c?

/-- The white space of Unicode (property `White_Space`). -/
def isBlank (c : Char) : Bool :=
  let n := c.toNat
  (9 ≤ n && n ≤ 13) || n == 0x20 || n == 0x85 || n == 0xA0 || n == 0x1680
    || (0x2000 ≤ n && n ≤ 0x200A) || n == 0x2028 || n == 0x2029 || n == 0x202F
    || n == 0x205F || n == 0x3000

/-- The space separators of Unicode (category `Zs`). -/
def isSpaceSeparator (c : Char) : Bool :=
  let n := c.toNat
  n == 0x20 || n == 0xA0 || n == 0x1680 || (0x2000 ≤ n && n ≤ 0x200A) || n == 0x202F
    || n == 0x205F || n == 0x3000

def isDigit (c : Char) : Bool := '0' ≤ c && c ≤ '9'

def isOctalDigit (c : Char) : Bool := '0' ≤ c && c ≤ '7'

def isHexDigit (c : Char) : Bool :=
  isDigit c || ('a' ≤ c && c ≤ 'f') || ('A' ≤ c && c ≤ 'F')

def isUpper (c : Char) : Bool := 'A' ≤ c && c ≤ 'Z'

def isLower (c : Char) : Bool := 'a' ≤ c && c ≤ 'z'

def digitValue (c : Char) : Nat :=
  if isDigit c then c.toNat - 48
  else if 'a' ≤ c && c ≤ 'f' then c.toNat - 87
  else if 'A' ≤ c && c ≤ 'F' then c.toNat - 55
  else 0

def digitsValue (base : Nat) (digits : List Char) : Nat :=
  digits.foldl (fun n c => n * base + digitValue c) 0

def lowerChar (c : Char) : Char :=
  if isUpper c then Char.ofNat (c.toNat + 32) else c

def lower (s : String) : String := String.ofList (s.toList.map lowerChar)

def trimStart (s : List Char) : List Char := s.dropWhile isBlank

def trimEnd (s : List Char) : List Char := (s.reverse.dropWhile isBlank).reverse

def trim (s : List Char) : List Char := trimEnd (trimStart s)

def trimmed (s : String) : String := String.ofList (trim s.toList)

def afterHead? : List Char → List Char → Option (List Char)
  | [], s => some s
  | _ :: _, [] => none
  | c :: head, d :: s => if c = d then afterHead? head s else none

def beforeTail? (tail s : List Char) : Option (List Char) :=
  (afterHead? tail.reverse s.reverse).map List.reverse

theorem afterHead?_eq_some_iff {head s rest : List Char} :
    afterHead? head s = some rest ↔ s = head ++ rest := by
  induction head generalizing s with
  | nil => simp [afterHead?]
  | cons c head ih =>
    cases s with
    | nil => simp [afterHead?]
    | cons d s =>
      by_cases h : c = d
      · simp [afterHead?, h, ih]
      · simp [afterHead?, h, Ne.symm h]

theorem beforeTail?_eq_some_iff {tail s rest : List Char} :
    beforeTail? tail s = some rest ↔ s = rest ++ tail := by
  unfold beforeTail?
  constructor
  · intro h
    obtain ⟨back, hb, rfl⟩ := Option.map_eq_some_iff.mp h
    rw [← List.reverse_reverse s, afterHead?_eq_some_iff.mp hb]
    simp
  · intro h
    exact Option.map_eq_some_iff.mpr
      ⟨rest.reverse, afterHead?_eq_some_iff.mpr (by simp [h]), List.reverse_reverse rest⟩

theorem ne_of_test {p : Char → Bool} {c d : Char} (hc : p c = true) (hd : p d = false) : c ≠ d := by
  rintro rfl
  rw [hc] at hd
  cases hd

/-- The first stretch of a text ends where the next character does not belong to it. -/
theorem takeWhile_append_of_stop {p : Char → Bool} {s rest : List Char}
    (hs : ∀ c ∈ s, p c = true) (hr : ∀ c, rest.head? = some c → p c = false) :
    (s ++ rest).takeWhile p = s ∧ (s ++ rest).dropWhile p = rest := by
  rw [List.takeWhile_append_of_pos hs, List.dropWhile_append_of_pos hs]
  cases rest with
  | nil => simp
  | cons c rest => simp [hr c rfl]

def between? (mark : Char) (s : List Char) : Option (List Char) :=
  (afterHead? [mark] s).bind (beforeTail? [mark])

/-- Removes one pair of enclosing quotes, double quotes before single ones. -/
def unquote (s : String) : String :=
  match between? '"' s.toList with
  | some inner => String.ofList inner
  | none =>
    match between? '\'' s.toList with
    | some inner => String.ofList inner
    | none => s

def splitOn (separator : Char) : List Char → List (List Char)
  | [] => [[]]
  | c :: rest =>
    match splitOn separator rest with
    | [] => [[c]]
    | piece :: pieces => if c == separator then [] :: piece :: pieces else (c :: piece) :: pieces

def joinWith (mark : List Char) : List (List Char) → List Char
  | [] => []
  | [piece] => piece
  | piece :: rest => piece ++ mark ++ joinWith mark rest

end DeclSchema.Text
