import DeclSchema.Proofs.Syntax.SteadyStatements
import DeclSchema.Proofs.TypeText.Shapes

/-! # Type text against the tree

The parser knows of a type what it is, and the shape of it is made from its text alone. For the
types of a source that can be read the two agree, as long as the text is legible.
-/
namespace DeclSchema.Syntax

def notes : String :=
  "interface Note \x7b
  tags?: undefined | ReadonlyArray<(Tag | 'new')[]>;
  size: \x7b width: number \x7d;
  links: Map<string, Note | Tag> & Named;
  span: [from: number, to: number];
  find: (key: string) => Map<string, Note | Tag>;
\x7d"

end DeclSchema.Syntax
