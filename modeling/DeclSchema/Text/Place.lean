/-! # Places in a source

A place is a line and a column, both counted from one. Lines end at line feeds;
columns count the bytes that the text takes in UTF-8.
-/
namespace DeclSchema.Text

structure Place where
  line : Nat
  column : Nat
deriving Repr, DecidableEq

def Place.step (p : Place) (c : Char) : Place :=
  if c == '\n' then ⟨p.line + 1, 1⟩ else ⟨p.line, p.column + c.utf8Size⟩

def Place.after (text : List Char) : Place := text.foldl Place.step ⟨1, 1⟩

end DeclSchema.Text
