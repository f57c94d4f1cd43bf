import DeclSchema.Text.Chars
import DeclSchema.Text.Place

/-! # Faults of a source

A text that is no source has a first fault: something is missing at a place, or something
stands where nothing of the kind may stand. `SyntaxError` is what the user sees of it.
-/
namespace DeclSchema.Syntax
open Text

inductive Fault
  | missing (offset : Nat) (what : String)
  | unfinished (offset : Nat) (what : String)
  /-- This stretch of text has no meaning where it stands. -/
  | unexpected (offset : Nat) (text : List Char)
  /-- The statement makes no sense from this place on. -/
  | stuck (offset : Nat)
  /-- The bound on depth or on repetitions was met, which says nothing about the text. -/
  | exhausted (offset : Nat)
deriving Repr, DecidableEq

def Fault.offset : Fault → Nat
  | missing offset _ | unfinished offset _ | unexpected offset _ | stuck offset
  | exhausted offset => offset

def Fault.isExhausted : Fault → Bool
  | exhausted _ => true
  | _ => false

/-- The fault that lies further in the text, the second one if they lie at one place. -/
def Fault.further (first second : Fault) : Fault :=
  if second.offset < first.offset && !second.isExhausted then first else second

structure SyntaxError where
  place : Place
  message : String
deriving Repr, DecidableEq

def snippetLimit : Nat := 40

def snippet (text : List Char) : List Char :=
  (trim (text.takeWhile (· != '\n'))).take snippetLimit

def Fault.message : Fault → String
  | missing _ what | unfinished _ what => s!"expected \x60{what}\x60"
  | unexpected _ text => s!"unexpected \x60{String.ofList (snippet text)}\x60"
  | stuck _ | exhausted _ => "unexpected \x60\x60"

def Fault.toError (source : List Char) (fault : Fault) : SyntaxError :=
  ⟨Place.after (source.take fault.offset), fault.message⟩

end DeclSchema.Syntax
