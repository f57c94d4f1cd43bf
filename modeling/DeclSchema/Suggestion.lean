import DeclSchema.Definition
import DeclSchema.Text.Chars

/-! # Suggestions for a mistyped name

A query matches a name if its characters occur in the name in order, upper and lower case
alike. The score of a match is that of its best alignment: every matched character counts,
more at the beginning of a word and after another match, less in the wrong case, and the
characters left out in between cost something. Suggestions come in order of their scores,
equal scores in order of their names.
-/
namespace DeclSchema.Suggestion
open Text

def matchScore : Int := 16

def casePenalty : Int := 2

def gapStart : Int := 4

def gapExtension : Int := 1

def adjacentBonus : Int := 4

inductive CharKind
  | start
  | upper
  | lower
  | digit
  | hardSeparator
  | softSeparator
deriving DecidableEq

def CharKind.of (c : Char) : CharKind :=
  if c == '\x00' then start
  else if " /\\|()[]\x7b\x7d".toList.contains c then hardSeparator
  else if ('!' ≤ c && c ≤ '\'') || ('*' ≤ c && c ≤ '.') || (':' ≤ c && c ≤ '@')
      || ('^' ≤ c && c ≤ '\x60') || c == '~' then softSeparator
  else if isDigit c then digit
  else if isUpper c then upper
  else lower

/-- What a place is worth for a match: the beginning of a word after a hard or a soft
separator, or a change of case. -/
def placeBonus (before here : CharKind) : Int :=
  match before, here with
  | .start, _ | .hardSeparator, _ => 8
  | .softSeparator, _ => 7
  | .lower, .upper | .digit, .upper => 6
  | _, _ => 0

def bonuses : CharKind → List Char → List Int
  | _, [] => []
  | before, c :: rest => placeBonus before (.of c) :: bonuses (.of c) rest

/-- The places of a name with their bonuses; the first place counts twice. -/
def places (name : List Char) : List (Char × Int) :=
  let doubled : List Int :=
    match bonuses .start name with
    | [] => []
    | first :: rest => 2 * first :: rest
  name.zip doubled

def better : Option Int → Option Int → Option Int
  | some a, some b => some (max a b)
  | some a, none => some a
  | none, b => b

/-- The scores at one place of the best alignments of a part of the query: of those whose
last match is this place, and of those whose last match is an earlier place. -/
structure Scores where
  matched : Option Int
  skipped : Option Int

/-- One row of scores: the query's next character against the places of the name. `diagonal`
holds the scores of the shorter part of the query one place before, `left` those of this
part one place before. -/
def row (q : Char) (diagonal left : Scores) : List (Char × Int) → List Scores → List Scores
  | (c, bonus) :: places, above :: rest =>
    let matched :=
      if lowerChar c == lowerChar q then
        let count := if c == q then matchScore else matchScore - casePenalty
        (better (diagonal.matched.map (· + max bonus adjacentBonus))
          (diagonal.skipped.map (· + bonus))).map (· + count)
      else none
    let skipped :=
      better (left.matched.map (· - gapStart)) (left.skipped.map (· - gapExtension))
    let here : Scores := ⟨matched, skipped⟩
    here :: row q above here places rest
  | _, _ => []

/-- The scores before any query character is matched: leaving characters out costs the same
however many they are. -/
def origin : Scores := ⟨none, some (-gapExtension)⟩

def rows (places : List (Char × Int)) : List Char → Scores → List Scores → List Scores
  | [], _, scores => scores
  | q :: rest, before, scores =>
    rows places rest ⟨none, none⟩ (row q before ⟨none, none⟩ places scores)

def score? (name query : String) : Option Int :=
  if query.isEmpty then some 0
  else
    let places := places name.toList
    let last := rows places query.toList origin (places.map fun _ => origin)
    last.foldl (fun best s => better best s.matched) none

def ranked (score : String → Option Int) (names : List String) : List String :=
  let scored := names.filterMap fun name => (score name).map fun s => (s, name)
  (scored.mergeSort fun a b => a.1 > b.1 || (a.1 == b.1 && !(b.2 < a.2))).map Prod.snd

def suggestBy (score : String → String → Option Int) (definitions : Definitions) (query : String)
    (limit : Nat) : List String :=
  (ranked (fun name => score name query) definitions.names).take limit

def suggest (definitions : Definitions) (query : String) (limit : Nat) : List String :=
  suggestBy score? definitions query limit

end DeclSchema.Suggestion
