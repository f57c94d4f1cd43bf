import DeclSchema.Proofs.Syntax.Reads
import Mathlib.Data.Nat.Digits.Defs

/-! # The spellings of a string

A string literal spells its characters one after another, each as it is or behind a backslash:
by a letter, by its number, or by itself. It may also go on in the next line. These pieces stand
in any order between the quotes, and what follows a piece does not change what it denotes.
-/
namespace DeclSchema.Text.Escape
open Syntax (Quote stringValue_marks)

structure HexDigit where
  value : Fin 16
  upper : Bool

namespace HexDigit

def char (d : HexDigit) : Char :=
  if d.upper then (Nat.digitChar d.value).toUpper else Nat.digitChar d.value

theorem isHexDigit_char : ∀ d : HexDigit, isHexDigit d.char = true
  | ⟨value, upper⟩ => by
    revert value upper
    decide

theorem digitValue_char : ∀ d : HexDigit, digitValue d.char = d.value
  | ⟨value, upper⟩ => by
    revert value upper
    decide

theorem char_ne {c : Char} (d : HexDigit) (hc : isHexDigit c = false) : d.char ≠ c :=
  ne_of_test d.isHexDigit_char hc

end HexDigit

variable {digits : List HexDigit} {mark rest : List Char} {c : Char}

def charsOf (digits : List HexDigit) : List Char := digits.map HexDigit.char

def numberOf (digits : List HexDigit) : Nat :=
  Nat.ofDigits 16 (digits.reverse.map fun d => d.value.val)

theorem forall_mem_charsOf {p : Char → Prop} (h : ∀ d : HexDigit, p d.char) :
    ∀ c ∈ charsOf digits, p c := by
  intro c hc
  obtain ⟨d, -, rfl⟩ := List.mem_map.mp hc
  exact h d

theorem digitsValue_charsOf (digits : List HexDigit) :
    digitsValue 16 (charsOf digits) = numberOf digits := by
  induction digits using List.reverseRecOn with
  | nil => rfl
  | append_singleton digits d ih =>
    have hvalue : digitsValue 16 (charsOf (digits ++ [d])) =
        digitsValue 16 (charsOf digits) * 16 + digitValue d.char := by
      simp [digitsValue, charsOf]
    rw [hvalue, ih, d.digitValue_char]
    simp [numberOf, Nat.ofDigits_cons]
    omega

theorem takeHex_charsOf (digits : List HexDigit) (rest : List Char) :
    takeHex digits.length (charsOf digits ++ rest) = (charsOf digits, rest) := by
  induction digits with
  | nil => cases rest <;> rfl
  | cons d digits ih =>
    simp only [charsOf, List.map_cons, List.cons_append, List.length_cons] at ih ⊢
    simp [takeHex, d.isHexDigit_char, ih]

theorem hexValue?_charsOf (h : digits ≠ []) :
    hexValue? (charsOf digits) = some (numberOf digits) := by
  have hplus : afterHead? ['+'] (charsOf digits) = none := by
    cases digits with
    | nil => exact absurd rfl h
    | cons d digits => simp [charsOf, afterHead?, (d.char_ne (c := '+') (by decide)).symm]
  have hall : (charsOf digits).all isHexDigit = true :=
    List.all_eq_true.mpr (forall_mem_charsOf HexDigit.isHexDigit_char)
  have hsome : (charsOf digits).isEmpty = false := by simpa [charsOf] using h
  simp [hexValue?, hplus, hall, hsome, digitsValue_charsOf]

/-- Digits name the character that has their number. -/
theorem named_charsOf (mark : List Char) (h : digits ≠ []) (hc : numberOf digits = c.toNat) :
    named mark (charsOf digits) = [c] := by
  simp [named, hexValue?_charsOf h, hc, scalar?_toNat]

def controls : List (Char × Char) :=
  [('n', '\n'), ('r', '\r'), ('t', '\t'), ('b', '\x08'), ('f', '\x0c'), ('v', '\x0b'),
    ('0', '\x00')]

inductive LineEnd
  | feed
  | return
  | both

def LineEnd.chars : LineEnd → List Char
  | feed => ['\n']
  | .return => ['\r']
  | both => ['\r', '\n']

/-- One part of the spelling of a string: a character with one of its spellings, or a line
end behind a backslash. -/
inductive Piece
  | plain (c : Char) (allowed : c ∉ ['\\', '\n', '\r'])
  | control (letter c : Char) (listed : (letter, c) ∈ controls)
  /-- A number of two digits. -/
  | short (c : Char) (a b : HexDigit) (named : numberOf [a, b] = c.toNat)
  /-- A number of four digits. -/
  | long (c : Char) (a b d e : HexDigit) (named : numberOf [a, b, d, e] = c.toNat)
  /-- A number of any length in braces. -/
  | braced (c : Char) (digits : List HexDigit) (some : digits ≠ [])
      (named : numberOf digits = c.toNat)
  | continued (lineEnd : LineEnd)
  /-- A character that has no other meaning behind a backslash. -/
  | bare (c : Char) (other : c ∉ ['x', 'u', '\n', '\r'] ++ controls.map Prod.fst)

namespace Piece

def chars : Piece → List Char
  | plain c _ => [c]
  | control letter _ _ => ['\\', letter]
  | short _ a b _ => '\\' :: 'x' :: charsOf [a, b]
  | long _ a b d e _ => '\\' :: 'u' :: charsOf [a, b, d, e]
  | braced _ digits _ _ => '\\' :: 'u' :: '{' :: (charsOf digits ++ ['}'])
  | continued lineEnd => '\\' :: lineEnd.chars
  | bare c _ => ['\\', c]

def denoted : Piece → List Char
  | plain c _ | control _ c _ | short c _ _ _ | long c _ _ _ _ _ | braced c _ _ _ | bare c _ => [c]
  | continued _ => []

theorem head?_chars_append (piece : Piece) (rest : List Char) :
    (piece.chars ++ rest).head? ≠ some '\n' := by
  cases piece with
  | plain c allowed =>
    intro h
    obtain rfl : c = '\n' := by simpa [chars] using h
    exact allowed (by decide)
  | _ => simp [chars]

theorem head?_flatMap_chars (pieces : List Piece) : (pieces.flatMap chars).head? ≠ some '\n' := by
  cases pieces with
  | nil => simp
  | cons piece rest => exact piece.head?_chars_append _

end Piece

theorem decode_backslash (s : List Char) :
    decode ('\\' :: s) = (resolve s).1 ++ decode (resolve s).2 := by
  rw [decode]

theorem resolve_control {letter : Char} (h : (letter, c) ∈ controls) (rest : List Char) :
    resolve (letter :: rest) = ([c], rest) := by
  simp only [controls, List.mem_cons, List.not_mem_nil, or_false, Prod.mk.injEq] at h
  rcases h with ⟨rfl, rfl⟩ | ⟨rfl, rfl⟩ | ⟨rfl, rfl⟩ | ⟨rfl, rfl⟩ | ⟨rfl, rfl⟩ | ⟨rfl, rfl⟩ |
    ⟨rfl, rfl⟩ <;> rfl

theorem resolve_braced (h : digits ≠ []) (hc : numberOf digits = c.toNat) (rest : List Char) :
    resolve ('u' :: '{' :: (charsOf digits ++ '}' :: rest)) = ([c], rest) := by
  have hdigits : ∀ c ∈ charsOf digits, (c != '}') = true :=
    forall_mem_charsOf fun d => by simpa using d.char_ne (by decide)
  have hbrace : ∀ c, ('}' :: rest).head? = some c → (c != '}') = false := by simp
  obtain ⟨htake, hdrop⟩ := takeWhile_append_of_stop hdigits hbrace
  rw [resolve, htake, hdrop, named_charsOf _ h hc]
  rfl

theorem resolve_long {a b d e : HexDigit} (hc : numberOf [a, b, d, e] = c.toNat)
    (rest : List Char) :
    resolve ('u' :: (charsOf [a, b, d, e] ++ rest)) = ([c], rest) := by
  have htake : takeHex 4 (charsOf [a, b, d, e] ++ rest) = (charsOf [a, b, d, e], rest) :=
    takeHex_charsOf [a, b, d, e] rest
  have hbrace : ∀ after, charsOf [a, b, d, e] ++ rest = '{' :: after → False :=
    fun _ h => a.char_ne (c := '{') (by decide) (List.cons.inj h).1
  rw [resolve.eq_7 _ hbrace, htake, named_charsOf _ (by simp) hc]

theorem resolve_short {a b : HexDigit} (hc : numberOf [a, b] = c.toNat) (rest : List Char) :
    resolve ('x' :: (charsOf [a, b] ++ rest)) = ([c], rest) := by
  have htake : takeHex 2 (charsOf [a, b] ++ rest) = (charsOf [a, b], rest) :=
    takeHex_charsOf [a, b] rest
  rw [resolve, htake, named_charsOf _ (by simp) hc]

theorem resolve_lineEnd (lineEnd : LineEnd) (h : rest.head? ≠ some '\n') :
    resolve (lineEnd.chars ++ rest) = ([], rest) := by
  cases lineEnd with
  | feed => rfl
  | both => rfl
  | «return» =>
    cases rest with
    | nil => rfl
    | cons c rest =>
      have hc : c ≠ '\n' := by simpa using h
      exact resolve.eq_4 _ fun _ h => hc (List.cons.inj h).1

theorem resolve_bare (h : c ∉ ['x', 'u', '\n', '\r'] ++ controls.map Prod.fst) (rest : List Char) :
    resolve (c :: rest) = ([c], rest) := by
  simp only [controls, List.map_cons, List.map_nil, List.mem_append, List.mem_cons,
    List.not_mem_nil, or_false, not_or] at h
  obtain ⟨⟨hx, hu, hfeed, hreturn⟩, hn, hr, ht, hb, hf, hv, hzero⟩ := h
  have hsingle : single c = c := by
    unfold single
    split <;> simp_all
  rw [resolve.eq_8 _ _ hfeed (fun _ h _ => hreturn h) hreturn hx (fun _ h _ => hu h) hu, hsingle]

/-- Decoding takes one piece and goes on behind it. Only a line end could reach further, and it
does not before a piece. -/
theorem decode_piece (piece : Piece) (h : rest.head? ≠ some '\n') :
    decode (piece.chars ++ rest) = piece.denoted ++ decode rest := by
  cases piece with
  | plain c allowed =>
    have hc : c ≠ '\\' := fun h => allowed (by simp [h])
    exact decode.eq_3 _ _ hc
  | control letter c listed =>
    show decode ('\\' :: letter :: rest) = _
    rw [decode_backslash, resolve_control listed]
    rfl
  | short c a b named =>
    show decode ('\\' :: 'x' :: (charsOf [a, b] ++ rest)) = _
    rw [decode_backslash, resolve_short named]
    rfl
  | long c a b d e named =>
    show decode ('\\' :: 'u' :: (charsOf [a, b, d, e] ++ rest)) = _
    rw [decode_backslash, resolve_long named]
    rfl
  | braced c digits some named =>
    have hchars : (Piece.braced c digits some named).chars ++ rest =
        '\\' :: 'u' :: '{' :: (charsOf digits ++ '}' :: rest) := by simp [Piece.chars]
    rw [hchars, decode_backslash, resolve_braced some named]
    rfl
  | continued lineEnd =>
    show decode ('\\' :: (lineEnd.chars ++ rest)) = _
    rw [decode_backslash, resolve_lineEnd lineEnd h]
    rfl
  | bare c other =>
    show decode ('\\' :: c :: rest) = _
    rw [decode_backslash, resolve_bare other]
    rfl

theorem decode_pieces (pieces : List Piece) :
    decode (pieces.flatMap Piece.chars) = pieces.flatMap Piece.denoted := by
  induction pieces with
  | nil => rw [List.flatMap_nil, decode, List.flatMap_nil]
  | cons piece rest ih =>
    rw [List.flatMap_cons, List.flatMap_cons, decode_piece piece (Piece.head?_flatMap_chars rest), ih]

/-- A literal of any pieces between two equal quotes has the characters that the pieces denote,
in their order. -/
theorem stringValue_pieces (quote : Quote) (pieces : List Piece) :
    stringValue (String.ofList (quote.mark :: (pieces.flatMap Piece.chars ++ [quote.mark]))) =
      String.ofList (pieces.flatMap Piece.denoted) := by
  rw [stringValue_marks, decode_pieces]

end DeclSchema.Text.Escape
