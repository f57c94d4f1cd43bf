import DeclSchema.Generation
import DeclSchema.Proofs.Json.Blanks
import DeclSchema.Proofs.Schema.Alike

/-! # Rendering loses nothing

A rendered text has one value, the value of one document up to how its numbers are held, and
the two formats of a document differ in white space alone.
-/
namespace DeclSchema
open Json (deleteBlanks Tree)

def DocumentLayout.place (layout : DocumentLayout) (value : Tree) : Tree :=
  match layout with
  | .schemas => value
  | .components => .object [("components", .object [("schemas", value)])]

namespace Settings

def inFormat (settings : Settings) (format : Format) : Settings := { settings with format }

variable {settings : Settings} {document : Document}

theorem tree_toJson (settings : Settings) (document : Document) :
    (settings.toJson document).tree = settings.layout.place document.toJson.tree := by
  unfold toJson DocumentLayout.place
  cases settings.layout <;> rfl

theorem read?_render (settings : Settings) (document : Document) :
    Tree.read? (settings.render document) = some (settings.layout.place document.toJson.tree) := by
  rw [← tree_toJson]
  unfold render
  cases settings.format with
  | pretty => exact Json.read?_indented _
  | compact => exact Json.read?_compact _

/-- The text of a document is read as one value, at the place that the layout names, and among
all documents exactly those like the rendered one have that value. Without the white space
outside of strings the pretty text is the compact one. -/
theorem render_faithful (settings : Settings) (document : Document) :
    (∃ value : Tree,
      Tree.read? (settings.render document) = some (settings.layout.place value) ∧
      ∀ other : Document, other.toJson.tree = value ↔ other.Alike document) ∧
    String.ofList (deleteBlanks false ((settings.inFormat .pretty).render document).toList) =
      (settings.inFormat .compact).render document := by
  refine ⟨⟨document.toJson.tree, read?_render .., fun other => ?_⟩, ?_⟩
  · exact Document.tree_toJson_eq_iff other document
  · show String.ofList (deleteBlanks false (settings.toJson document).indented.toList) =
      (settings.toJson document).compact
    rw [Json.deleteBlanks_indented, String.ofList_toList]

end Settings
end DeclSchema
