import DeclSchema.Text.Chars

/-! # Escapes of string literals

`decode` resolves the escapes of a string literal's body in one pass. An escape that
names no character stays visible: its mark and its digits are kept as text.
`afterEscape?` is the stricter rule of the scanner, which says how far one escape
reaches in a well-written literal.
-/
namespace DeclSchema.Text.Escape

def scalar? (n : Nat) : Option Char :=
  if h : n.isValidChar then some ⟨n.toUInt32, by
    rw [UInt32.isValidChar, Nat.toUInt32, UInt32.toNat_ofNat_of_lt']
    · exact h
    · rcases h with h | h <;> simp only [UInt32.size] <;> omega⟩ else none

theorem scalar?_toNat (c : Char) : scalar? c.toNat = some c := by
  have hc : c.toNat.isValidChar := c.valid
  rw [scalar?, dif_pos hc]
  congr 1
  exact Char.ext UInt32.ofNat_toNat

/-- The number that hexadecimal digits denote; one plus sign may stand before them. -/
def hexValue? (digits : List Char) : Option Nat :=
  let body := (afterHead? ['+'] digits).getD digits
  if !body.isEmpty && body.all isHexDigit then some (digitsValue 16 body) else none

/-- The character that the digits name, or the escape's mark followed by the digits. -/
def named (mark digits : List Char) : List Char :=
  match (hexValue? digits).bind scalar? with
  | some c => [c]
  | none => mark ++ digits

def single (c : Char) : Char :=
  match c with
  | 'n' => '\n'
  | 'r' => '\r'
  | 't' => '\t'
  | 'b' => '\x08'
  | 'f' => '\x0c'
  | 'v' => '\x0b'
  | '0' => '\x00'
  | other => other

def takeHex : Nat → List Char → List Char × List Char
  | 0, s => ([], s)
  | _ + 1, [] => ([], [])
  | limit + 1, c :: rest =>
    if isHexDigit c then
      let (digits, after) := takeHex limit rest
      (c :: digits, after)
    else ([], c :: rest)

theorem takeHex_length (limit : Nat) (s : List Char) : (takeHex limit s).2.length ≤ s.length := by
  fun_induction takeHex limit s with
  | case1 => exact Nat.le_refl _
  | case2 => exact Nat.le_refl _
  | case3 limit c rest _ digits after hs ih =>
    rw [hs] at ih
    exact Nat.le_succ_of_le ih
  | case4 => exact Nat.le_refl _

def resolve : List Char → List Char × List Char
  | [] => (['\\'], [])
  | '\n' :: rest => ([], rest)
  | '\r' :: '\n' :: rest => ([], rest)
  | '\r' :: rest => ([], rest)
  | 'x' :: rest =>
    (named ['\\', 'x'] (takeHex 2 rest).1, (takeHex 2 rest).2)
  | 'u' :: '{' :: rest =>
    (named ['\\', 'u'] (rest.takeWhile (· != '}')), (rest.dropWhile (· != '}')).drop 1)
  | 'u' :: rest =>
    (named ['\\', 'u'] (takeHex 4 rest).1, (takeHex 4 rest).2)
  | c :: rest => ([single c], rest)

theorem resolve_length (s : List Char) : (resolve s).2.length ≤ s.length := by
  fun_cases resolve s <;> simp only [List.length_cons, List.length_nil, List.length_drop] <;> try omega
  case case5 rest =>
    have := takeHex_length 2 rest
    omega
  case case6 rest =>
    have := (List.dropWhile_sublist (· != '}') (l := rest)).length_le
    omega
  case case7 rest _ =>
    have := takeHex_length 4 rest
    omega

def decode : List Char → List Char
  | [] => []
  | '\\' :: rest => (resolve rest).1 ++ decode (resolve rest).2
  | c :: rest => c :: decode rest
termination_by s => s.length
decreasing_by
  · have := resolve_length rest
    simp only [List.length_cons]
    omega
  · simp

def stringValue (text : String) : String :=
  let body := ((between? '"' text.toList).orElse fun _ => between? '\'' text.toList).getD text.toList
  String.ofList (decode body)

def afterEscape? : List Char → Option (List Char)
  | [] => none
  | 'x' :: a :: b :: rest => if isHexDigit a && isHexDigit b then some rest else none
  | 'x' :: _ => none
  | 'u' :: '{' :: rest =>
    if ((rest.head?.map isHexDigit).getD false) then
      afterHead? ['}'] (rest.dropWhile isHexDigit)
    else none
  | 'u' :: a :: b :: c :: d :: rest =>
    if [a, b, c, d].all isHexDigit then some rest else none
  | 'u' :: _ => none
  | '\r' :: '\n' :: rest => some rest
  | _ :: rest => some rest

end DeclSchema.Text.Escape
