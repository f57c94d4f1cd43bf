import DeclSchema.Proofs.Decimal.Nearest
import DeclSchema.Proofs.Json.Reading

/-! # The text of numbers

Every number is written in the grammar of JSON numbers, so a reader takes its whole text and
nothing behind it.
-/
namespace DeclSchema.Json.Tree
open Text

structure IsDigits (s : List Char) : Prop where
  nonempty : s ≠ []
  digits : ∀ c ∈ s, isDigit c = true

def IsWhole (s : List Char) : Prop := IsDigits s ∧ (s.head? = some '0' → s = ['0'])

def IsFraction (s : List Char) : Prop := s = [] ∨ ∃ digits, s = '.' :: digits ∧ IsDigits digits

def IsPower (s : List Char) : Prop :=
  s = [] ∨ ∃ sign digits, s = 'e' :: sign :: digits ∧ (sign = '+' ∨ sign = '-') ∧ IsDigits digits

structure IsUnsigned (s : List Char) : Prop where
  parts : ∃ whole fraction power, s = whole ++ (fraction ++ power) ∧
    IsWhole whole ∧ IsFraction fraction ∧ IsPower power

def IsNumber (s : List Char) : Prop := IsUnsigned s ∨ ∃ rest, s = '-' :: rest ∧ IsUnsigned rest

def EndsNumber (rest : List Char) : Prop :=
  ∀ c, rest.head? = some c → isDigit c = false ∧ c ≠ '.' ∧ c ≠ 'e' ∧ c ≠ 'E'

section Reading
variable {s rest : List Char}

theorem readDigits_append (hs : IsDigits s)
    (hr : ∀ c, rest.head? = some c → isDigit c = false) :
    readDigits (s ++ rest) = some (s, rest) := by
  obtain ⟨htake, hdrop⟩ := takeWhile_append_of_stop hs.digits hr
  rw [readDigits, htake, hdrop, if_neg (by simp [hs.nonempty])]

theorem readWhole_append (hs : IsWhole s)
    (hr : ∀ c, rest.head? = some c → isDigit c = false) :
    readWhole (s ++ rest) = some (s, rest) := by
  obtain ⟨hdigits, hzero⟩ := hs
  cases s with
  | nil => exact absurd rfl hdigits.nonempty
  | cons c more =>
    by_cases hc : c = '0'
    · subst hc
      obtain rfl : more = [] := by simpa using hzero rfl
      rfl
    · rw [readWhole.eq_2 _ (by intro after h; simp at h; exact hc h.1)]
      exact readDigits_append hdigits hr

theorem readFraction_append (hs : IsFraction s)
    (hr : ∀ c, rest.head? = some c → isDigit c = false ∧ c ≠ '.') :
    readFraction (s ++ rest) = some (s, rest) := by
  rcases hs with rfl | ⟨digits, rfl, hdigits⟩
  · rw [List.nil_append, readFraction.eq_2]
    rintro after rfl
    exact (hr '.' rfl).2 rfl
  · rw [List.cons_append, readFraction, readDigits_append hdigits fun c h => (hr c h).1]
    rfl

theorem readPower_append (hs : IsPower s) (hr : EndsNumber rest) :
    readPower (s ++ rest) = some (s, rest) := by
  rcases hs with rfl | ⟨sign, digits, rfl, hsign, hdigits⟩
  · cases rest with
    | nil => rfl
    | cons c rest =>
      obtain ⟨-, -, he, hE⟩ := hr c rfl
      simp [readPower, he, hE]
  · have hread : readSign (sign :: (digits ++ rest)) = ([sign], digits ++ rest) := by
      rcases hsign with rfl | rfl <;> rfl
    rw [List.cons_append, List.cons_append, readPower,
      if_pos (by decide : ('e' == 'e' || 'e' == 'E') = true), hread,
      readDigits_append hdigits fun c h => (hr c h).1]
    rfl

theorem readUnsigned_append (hs : IsUnsigned s) (hr : EndsNumber rest) :
    readUnsigned (s ++ rest) = some (s, rest) := by
  obtain ⟨whole, fraction, power, rfl, hwhole, hfraction, hpower⟩ := hs.parts
  -- neither a digit nor a point stands where one part ends and the next begins
  have hfirst : ∀ c, (power ++ rest).head? = some c → isDigit c = false ∧ c ≠ '.' := by
    intro c hc
    rcases hpower with rfl | ⟨_, _, rfl, _⟩
    · exact ⟨(hr c hc).1, (hr c hc).2.1⟩
    · cases hc
      decide
  have hsecond : ∀ c, (fraction ++ (power ++ rest)).head? = some c → isDigit c = false := by
    intro c hc
    rcases hfraction with rfl | ⟨_, rfl, _⟩
    · exact (hfirst c hc).1
    · cases hc
      decide
  unfold readUnsigned
  rw [List.append_assoc, List.append_assoc, readWhole_append hwhole hsecond, Option.bind_eq_bind,
    Option.bind_some]
  dsimp only
  rw [readFraction_append hfraction hfirst, Option.bind_some]
  dsimp only
  rw [readPower_append hpower hr]
  rfl

theorem exists_head_of_isUnsigned (hs : IsUnsigned s) :
    ∃ c more, s = c :: more ∧ isDigit c = true := by
  obtain ⟨whole, fraction, power, rfl, ⟨hdigits, _⟩, _, _⟩ := hs.parts
  cases whole with
  | nil => exact absurd rfl hdigits.nonempty
  | cons c more => exact ⟨c, _, rfl, hdigits.digits c List.mem_cons_self⟩

theorem readNumber_append (hs : IsNumber s) (hr : EndsNumber rest) :
    readNumber (s ++ rest) = some (s, rest) := by
  rcases hs with hs | ⟨s, rfl, hs⟩
  · obtain ⟨c, more, rfl, hc⟩ := exists_head_of_isUnsigned hs
    have hne : c ≠ '-' := ne_of_test hc (by decide)
    rw [readNumber.eq_2 _ (by intro after h; simp at h; exact hne h.1)]
    exact readUnsigned_append hs hr
  · rw [List.cons_append, readNumber, readUnsigned_append hs hr]
    rfl

theorem exists_head_of_isNumber (hs : IsNumber s) :
    ∃ c more, s = c :: more ∧ (isDigit c = true ∨ c = '-') := by
  rcases hs with hs | ⟨rest, rfl, _⟩
  · obtain ⟨c, more, rfl, hc⟩ := exists_head_of_isUnsigned hs
    exact ⟨c, more, rfl, .inl hc⟩
  · exact ⟨'-', rest, rfl, .inr rfl⟩

/-- The characters that numbers are written with. -/
theorem mem_of_isNumber (hs : IsNumber s) :
    ∀ c ∈ s, isDigit c = true ∨ c ∈ ['.', 'e', '+', '-'] := by
  have hunsigned : ∀ t, IsUnsigned t → ∀ c ∈ t, isDigit c = true ∨ c ∈ ['.', 'e', '+', '-'] := by
    intro t ht c hc
    obtain ⟨whole, fraction, power, rfl, ⟨hwhole, _⟩, hfraction, hpower⟩ := ht.parts
    rcases List.mem_append.mp hc with hc | hc
    · exact .inl (hwhole.digits c hc)
    · rcases List.mem_append.mp hc with hc | hc
      · rcases hfraction with rfl | ⟨digits, rfl, hdigits⟩
        · cases hc
        · rcases List.mem_cons.mp hc with rfl | hc
          · exact .inr (by decide)
          · exact .inl (hdigits.digits c hc)
      · rcases hpower with rfl | ⟨sign, digits, rfl, hsign, hdigits⟩
        · cases hc
        · rcases List.mem_cons.mp hc with rfl | hc
          · exact .inr (by decide)
          · rcases List.mem_cons.mp hc with rfl | hc
            · rcases hsign with rfl | rfl <;> exact .inr (by decide)
            · exact .inl (hdigits.digits c hc)
  rcases hs with hs | ⟨rest, rfl, hs⟩
  · exact hunsigned s hs
  · intro c hc
    rcases List.mem_cons.mp hc with rfl | hc
    · exact .inr (by decide)
    · exact hunsigned rest hs c hc

end Reading

theorem isDigit_of_core {c : Char} (h : c.isDigit = true) : isDigit c = true := by
  simpa [isDigit, Char.isDigit, Char.le_def] using h

theorem isDigits_toDigits (n : ℕ) : IsDigits (Nat.toDigits 10 n) where
  nonempty := Nat.toDigits_ne_nil
  digits _ hc := isDigit_of_core (Nat.isDigit_of_mem_toDigits (by omega) (by omega) hc)

theorem head?_toDigits_ne_zero {n : ℕ} (h : n ≠ 0) : (Nat.toDigits 10 n).head? ≠ some '0' := by
  induction n using Nat.strongRecOn with
  | ind n ih =>
    rw [Nat.toDigits_eq_if (by omega)]
    split
    · rename_i hlt
      have hdigit : ∀ m < 10, m ≠ 0 → Nat.digitChar m ≠ '0' := by decide
      simpa using hdigit n hlt h
    · rename_i hge
      have hrec := ih (n / 10) (by omega) (by omega)
      rw [List.head?_append]
      cases hhead : (Nat.toDigits 10 (n / 10)).head? with
      | none => simp [List.head?_eq_none_iff] at hhead
      | some c => simpa [hhead] using hrec

theorem IsDigits.append {s t : List Char} (hs : IsDigits s) (ht : ∀ c ∈ t, isDigit c = true) :
    IsDigits (s ++ t) where
  nonempty := by simp [hs.nonempty]
  digits c hc := (List.mem_append.mp hc).elim (hs.digits c) (ht c)

theorem isDigit_of_mem_zeros {n : ℕ} : ∀ c ∈ Decimal.zeros n, isDigit c = true := by
  intro c hc
  rw [List.eq_of_mem_replicate hc]
  decide

theorem isWhole_of_head {s : List Char} (hs : IsDigits s) (h : s.head? ≠ some '0') : IsWhole s :=
  ⟨hs, fun hzero => absurd hzero h⟩

theorem isWhole_toDigits (n : ℕ) : IsWhole (Nat.toDigits 10 n) := by
  refine ⟨isDigits_toDigits n, fun hzero => ?_⟩
  by_cases h : n = 0
  · rw [h, Nat.toDigits_zero]
  · exact absurd hzero (head?_toDigits_ne_zero h)

theorem isDigits_zero : IsDigits ['0'] := ⟨by simp, by decide⟩

theorem isWhole_zero : IsWhole ['0'] := ⟨isDigits_zero, fun _ => rfl⟩

theorem IsWhole.isUnsigned {whole : List Char} (h : IsWhole whole) : IsUnsigned whole :=
  ⟨whole, [], [], by simp, h, .inl rfl, .inl rfl⟩

theorem IsWhole.withFraction {whole digits : List Char} (h : IsWhole whole)
    (hd : IsDigits digits) : IsUnsigned (whole ++ '.' :: digits) :=
  ⟨whole, '.' :: digits, [], by simp, h, .inr ⟨digits, rfl, hd⟩, .inl rfl⟩

/-- Digits by position, where the first of them is not zero. -/
theorem isUnsigned_positional {digits : List Char} (hd : IsDigits digits)
    (hhead : digits.head? ≠ some '0') (point : ℤ) :
    IsUnsigned (Decimal.Layout.interchange.positional digits point) := by
  unfold Decimal.Layout.positional
  split
  · refine isWhole_zero.withFraction ⟨by simp [hd.nonempty], ?_⟩
    intro c hc
    exact (List.mem_append.mp hc).elim (isDigit_of_mem_zeros c) (hd.digits c)
  · rename_i hpoint
    split
    · have hwhole : IsWhole (digits ++ Decimal.zeros (point.toNat - digits.length)) := by
        refine isWhole_of_head (hd.append isDigit_of_mem_zeros) ?_
        rw [List.head?_append]
        cases h : digits.head? with
        | none => exact absurd (List.head?_eq_none_iff.mp h) hd.nonempty
        | some c => simpa [h] using hhead
      exact hwhole.withFraction isDigits_zero
    · rename_i hlong
      have hwhole : IsWhole (digits.take point.toNat) := by
        refine isWhole_of_head ⟨?_, fun c hc => hd.digits c (List.mem_of_mem_take hc)⟩ ?_
        · rw [Ne, List.take_eq_nil_iff]
          rintro (h | h)
          · omega
          · exact hd.nonempty h
        · rwa [List.head?_take, if_neg (by omega)]
      refine hwhole.withFraction ⟨?_, fun c hc => hd.digits c (List.mem_of_mem_drop hc)⟩
      rw [Ne, List.drop_eq_nil_iff]
      omega

theorem isUnsigned_scientific {digits : List Char} (hd : IsDigits digits)
    (hhead : digits.head? ≠ some '0') (point : ℤ) :
    IsUnsigned (Decimal.scientific digits point) := by
  have hpower : ∀ e : ℤ, IsPower ('e' :: (if e < 0 then '-' else '+') :: Nat.toDigits 10 e.natAbs) := by
    intro e
    refine .inr ⟨_, _, rfl, ?_, isDigits_toDigits _⟩
    split
    · exact .inr rfl
    · exact .inl rfl
  cases digits with
  | nil => exact absurd rfl hd.nonempty
  | cons c rest =>
    have hwhole : IsWhole [c] := by
      refine isWhole_of_head ⟨by simp, ?_⟩ (by simpa using hhead)
      intro d hm
      rw [List.mem_singleton.mp hm]
      exact hd.digits c List.mem_cons_self
    cases rest with
    | nil => exact ⟨[c], [], _, rfl, hwhole, .inl rfl, hpower (point - 1)⟩
    | cons d rest =>
      have hfraction : IsDigits (d :: rest) :=
        ⟨by simp, fun x hx => hd.digits x (List.mem_cons_of_mem _ hx)⟩
      exact ⟨[c], '.' :: d :: rest, _, by simp [Decimal.scientific], hwhole, .inr ⟨_, rfl, hfraction⟩,
        hpower (point - 1)⟩

theorem isNumber_of_sign {s : List Char} (h : IsUnsigned s) (negative : Bool) :
    IsNumber ((if negative then ['-'] else []) ++ s) := by
  cases negative with
  | true => exact .inr ⟨s, rfl, h⟩
  | false => exact .inl h

theorem isNumber_write (d : Decimal.Binary64) : IsNumber (d.write .interchange).toList := by
  unfold Decimal.Binary64.write
  rw [String.toList_ofList]
  refine isNumber_of_sign ?_ d.negative
  split
  · exact isWhole_zero.withFraction isDigits_zero
  · rename_i hzero
    have hm : d.mantissa ≠ 0 := by simpa [Decimal.Binary64.isZero] using hzero
    have hne := Decimal.Binary64.shortest_digits_ne_zero hm
    have hd := isDigits_toDigits d.shortest.digits
    have hhead := head?_toDigits_ne_zero hne
    dsimp only
    split
    · exact isUnsigned_positional hd hhead _
    · exact isUnsigned_scientific hd hhead _

end DeclSchema.Json.Tree

namespace DeclSchema.Number
open Json.Tree

theorem isNumber_text (n : Number) : IsNumber n.text.toList := by
  cases n with
  | double d => exact isNumber_write d
  | whole value =>
    cases value with
    | ofNat n =>
      show IsNumber n.repr.toList
      rw [Nat.toList_repr]
      exact .inl (isWhole_toDigits n).isUnsigned
    | negSucc n =>
      refine .inr ⟨Nat.toDigits 10 n.succ, ?_, (isWhole_toDigits _).isUnsigned⟩
      show ("-" ++ n.succ.repr).toList = _
      rw [String.toList_append, Nat.toList_repr]
      rfl

end DeclSchema.Number
