import DeclSchema.Proofs.Syntax.SteadyStatements

/-! # Trees are well formed

What is built on a tree relies on the texts in it. They are stretches of the source, each one around
those of the types directly inside of it; rows of operands are flat; and a list of heritage names
every type once, by nothing but its name. Nothing is nested in an interface: what is declared inside of
one is not recorded.
-/
namespace DeclSchema.Syntax
open Text

/-- Whatever is declared inside of an interface, the interface is all that is recorded. -/
theorem interfaceDeclaration_found {g : Grammar} {scope : Scope} {s t : State} {a : Unit}
    (h : interfaceDeclaration g scope s = .ok (a, t)) :
    ∃ name heritage members, t.found = .interfaceDecl name heritage members :: s.found := by
  dsimp only [interfaceDeclaration] at h
  obtain ⟨_, u, hword, h⟩ := bind_eq_ok.mp h
  obtain ⟨name, v, hname, h⟩ := bind_eq_ok.mp h
  obtain ⟨⟨heritage, members⟩, w, hunseen, h⟩ := bind_eq_ok.mp h
  obtain ⟨_, hgather, -⟩ := map_eq_ok.mp hunseen
  obtain ⟨x, -, -, rfl⟩ := gather_eq_ok hgather
  obtain ⟨-, rfl⟩ := expectWord_eq_ok hword
  obtain ⟨-, rfl⟩ := anyWord_eq_ok hname
  cases h
  exact ⟨name, heritage, members, rfl⟩

/-- What may be relied on in the tree of a source, for its types and items at any depth, and wherever an
interface is read in the source. -/
structure WellFormed (source : String) (items : List Item) : Prop where
  text : ∀ node ∈ Item.nodesOfAll items, node.text.toList <:+: source.toList ∧ Trimmed node.text.toList
  parts : ∀ node ∈ Item.nodesOfAll items, ∀ part ∈ node.parts, part.text.toList <:+: node.text.toList
  union : ∀ text operands, .union text operands ∈ Item.nodesOfAll items →
    ∀ operand ∈ operands, operand.isUnion = false
  intersection : ∀ text operands, .intersection text operands ∈ Item.nodesOfAll items →
    ∀ operand ∈ operands, operand.isIntersection = false
  heritage : ∀ item ∈ Item.deepOfAll items, item.heritage.Nodup ∧
    ∀ name ∈ item.heritage, name ≠ "" ∧ Trimmed name.toList ∧ '<' ∉ name.toList
  interface : ∀ ⦃depth scope s t⦄, s.PlacedIn source.toList →
    interfaceDeclaration (.ofDepth depth) scope s = .ok ((), t) →
      ∃ name heritage members, t.found = .interfaceDecl name heritage members :: s.found

theorem trimmed_of_trim_eq {s : List Char} (h : trim s = s) : Trimmed s := h ▸ trimmed_trim s

theorem ItemsSound.wellFormed {source : String} {items : List Item} (h : ItemsSound source.toList items) :
    WellFormed source items := by
  have hspelled : ∀ node ∈ Item.nodesOfAll items, node.Spelled := fun node hnode =>
    (h.spelledIn hnode).all node node.self_mem_nodes
  exact
    { text := fun node hnode => ⟨(h.spelledIn hnode).within, trimmed_of_trim_eq (hspelled node hnode).trimmed⟩
      parts := fun node hnode => (hspelled node hnode).nested
      union := fun _ _ hnode => (hspelled _ hnode).woven.1
      intersection := fun _ _ hnode => (hspelled _ hnode).woven.1
      heritage := fun item hitem => by
        have htidy := (h item hitem).heritage
        refine ⟨htidy.nodup, fun name hname => ?_⟩
        have hone := htidy.tidy name hname
        exact ⟨hone.nonempty, trimmed_of_trim_eq hone.trimmed, hone.plain⟩
      interface := fun _ _ _ _ _ hread => interfaceDeclaration_found hread }

/-- The tree of every source that can be read is well formed. -/
theorem parseSource_wellFormed {source : String} {items : List Item} (h : parseSource source = .ok items) :
    WellFormed source items := (parseSource_sound h).wellFormed

def shelf : String :=
  "class Shelf extends Base.Box /* of */ <T> implements Box, Box /* < */ <T> \x7b
  find() \x7b interface Hit extends Note /* by */ <A> \x7b at: (A | B)[] \x7d \x7d
\x7d
type Both = | [A & B] | C;"

theorem parseSource_wellFormed_shelf : ∃ items, parseSource shelf = .ok items ∧ WellFormed shelf items ∧
    (Item.nodesOfAll items).length = 11 ∧
    (Item.deepOfAll items).map Item.heritage = [["Base.Box", "Box"], ["Note"], []] := by
  have hread : (parseSource shelf).toOption.any (fun items => (Item.nodesOfAll items).length == 11 &&
      (Item.deepOfAll items).map Item.heritage == [["Base.Box", "Box"], ["Note"], []]) = true := by
    decide +kernel
  cases hparse : parseSource shelf with
  | error fault =>
    rw [hparse] at hread
    cases hread
  | ok items =>
    rw [hparse] at hread
    obtain ⟨hlength, hheritage⟩ := (Bool.and_eq_true _ _).mp hread
    exact ⟨items, rfl, parseSource_wellFormed hparse, eq_of_beq hlength, eq_of_beq hheritage⟩

end DeclSchema.Syntax
