import DeclSchema.Proofs.Syntax.Spelling

/-! # Declarations in their ordinary layout

Interfaces, type aliases and enums, with namespaces and functions around them, are written one
after another, what stands in braces on lines of its own. `Ordinary` holds of the declarations
whose names are plain and whose types are put together from names, strings, arrays, type
arguments, unions, parentheses and object types, each in its ordinary spelling.
-/
namespace DeclSchema.Syntax
open Text

def keywords : List String :=
  ["abstract", "accessor", "any", "as", "assert", "asserts", "async", "await", "bigint", "boolean",
    "break", "case", "catch", "class", "const", "constructor", "continue", "debugger", "declare",
    "default", "delete", "do", "else", "enum", "export", "extends", "false", "finally", "for",
    "from", "function", "get", "global", "if", "implements", "import", "in", "infer", "instanceof",
    "interface", "intrinsic", "is", "keyof", "let", "module", "namespace", "never", "new", "null",
    "number", "object", "of", "out", "override", "package", "private", "protected", "public",
    "readonly", "require", "return", "satisfies", "set", "static", "string", "super", "switch",
    "symbol", "this", "throw", "true", "try", "type", "typeof", "undefined", "unique", "unknown",
    "using", "var", "void", "while", "with", "yield"]

def isLetter (c : Char) : Bool := isLower c || isUpper c || c == '_' || c == '$'

def isWord : List Char → Bool
  | [] => false
  | c :: rest => isLetter c && rest.all fun d => isLetter d || isDigit d

def isName (name : String) : Bool := isWord name.toList && !keywords.contains name

def isPlain (value : String) : Bool :=
  value.toList.all fun c => !(['"', '\'', '\\', '\n', '\r'].contains c)

inductive Quote
  | single
  | double
deriving Repr, DecidableEq

def Quote.mark : Quote → Char
  | single => '\''
  | double => '"'

def quoted (quote : Quote) (value : String) : List Char :=
  quote.mark :: (value.toList ++ [quote.mark])

def braced (gap last : List Char) (entries : List (List Char)) : List Char :=
  '{' :: (entries.flatMap (gap ++ ·) ++ (last ++ ['}']))

def stated : Option TypeNode → List Char
  | some type => ':' :: ' ' :: type.text.toList
  | none => []

def Field.written (m : Member) : List Char :=
  m.name.toList ++ ((if m.optional then ['?'] else []) ++ stated m.type?)

def memberEntries (members : List Member) : List (List Char) := members.map (·.written ++ [';'])

def TypeNode.texts (mark : List Char) (types : List TypeNode) : List Char :=
  joinWith mark (types.map (·.text.toList))

namespace TypeNode

/-- A type in its ordinary spelling. -/
inductive Ordinary : TypeNode → Prop
  | name {name : String} (h : isName name = true) : Ordinary (reference name name [])
  | primitive (p : Primitive) : Ordinary (reference p.name p.name [])
  | quoted {text value : String} (quote : Quote) (hvalue : isPlain value = true)
      (htext : text.toList = Syntax.quoted quote value) : Ordinary (literal text (.string value))
  | array {text : String} {element : TypeNode} (helement : Ordinary element)
      (hunion : element.isUnion = false) (htext : text.toList = element.text.toList ++ ['[', ']']) :
      Ordinary (array text element)
  | generic {text name : String} {args : List TypeNode} (hname : isName name = true)
      (hne : args ≠ []) (hargs : ∀ arg ∈ args, Ordinary arg)
      (htext : text.toList = name.toList ++ '<' :: (texts [',', ' '] args ++ ['>'])) :
      Ordinary (reference text name args)
  | union {text : String} {operands : List TypeNode} (htwo : 2 ≤ operands.length)
      (hoperands : ∀ operand ∈ operands, Ordinary operand)
      (hunion : ∀ operand ∈ operands, operand.isUnion = false)
      (htext : text.toList = texts [' ', '|', ' '] operands) : Ordinary (union text operands)
  | parenthesized {text : String} {inner : TypeNode} (hinner : Ordinary inner)
      (htext : text.toList = '(' :: (inner.text.toList ++ [')'])) : Ordinary (parenthesized text inner)
  | object {text : String} {members : List Member} (hnames : ∀ m ∈ members, isName m.name = true)
      (htypes : ∀ m ∈ members, ∀ type, m.type? = some type → Ordinary type)
      (htext : text.toList = braced [' '] [' '] (memberEntries members)) :
      Ordinary (object text members)

end TypeNode

def Field.Ordinary (m : Member) : Prop :=
  isName m.name = true ∧ ∀ type, m.type? = some type → type.Ordinary

namespace EnumMember

inductive Ordinary : EnumMember → Prop
  | plain {name : String} (h : isName name = true) : Ordinary ⟨name, none⟩
  | string {name value : String} (h : isName name = true) (hvalue : isPlain value = true) :
      Ordinary ⟨name, some (.string value)⟩
  | number {name : String} (h : isName name = true) (n : Nat) :
      Ordinary ⟨name, some (.number (toString n))⟩

def valueWritten (quote : Quote) : Option Literal → List Char
  | some (.string value) => ' ' :: '=' :: ' ' :: quoted quote value
  | some (.number text) => ' ' :: '=' :: ' ' :: text.toList
  | _ => []

def written (quote : Quote) (m : EnumMember) : List Char :=
  m.name.toList ++ valueWritten quote m.value?

end EnumMember

def line (indent : List Char) : List Char := '\n' :: indent

def deeper (indent : List Char) : List Char := ' ' :: ' ' :: indent

def headed (word : String) (rest : List Char) : List Char := word.toList ++ ' ' :: rest

def heritageWritten : List String → List Char
  | [] => []
  | heritage => ' ' :: headed "extends" (joinWith [',', ' '] (heritage.map String.toList))

namespace Item

/-- A declaration of the kinds that are written here. -/
inductive Ordinary : Item → Prop
  | interfaceDecl {name : String} {heritage : List String} {members : List Member}
      (hname : isName name = true) (hheritage : ∀ base ∈ heritage, isName base = true)
      (hdistinct : heritage.Nodup) (hmembers : ∀ m ∈ members, m.Ordinary) :
      Ordinary (interfaceDecl name heritage members)
  | aliasDecl {name : String} {type : TypeNode} (hname : isName name = true) (htype : type.Ordinary) :
      Ordinary (aliasDecl name type)
  | enumDecl {name : String} {isConst : Bool} {members : List EnumMember} (hname : isName name = true)
      (hmembers : ∀ m ∈ members, m.Ordinary) : Ordinary (enumDecl name isConst members)
  | namespaceDecl {name : String} {items : List Item} (hname : isName name = true)
      (hitems : ∀ item ∈ items, Ordinary item) : Ordinary (namespaceDecl name items)
  | functionDecl {name : String} {body : List Item} (hname : isName name = true)
      (hbody : ∀ item ∈ body, Ordinary item) : Ordinary (functionDecl name body)

mutual

/-- A declaration at a depth of indentation. Classes and constants are not written. -/
def written (quote : Quote) (indent : List Char) : Item → List Char
  | interfaceDecl name heritage members =>
    headed "interface" (name.toList ++ (heritageWritten heritage ++
      ' ' :: braced (line (deeper indent)) (line indent) (memberEntries members)))
  | aliasDecl name type => headed "type" (name.toList ++ ' ' :: '=' :: ' ' :: (type.text.toList ++ [';']))
  | enumDecl name isConst members =>
    (if isConst then headed "const" else id) (headed "enum" (name.toList ++
      ' ' :: braced (line (deeper indent)) (line indent) (members.map (·.written quote ++ [',']))))
  | namespaceDecl name items =>
    headed "namespace" (name.toList ++
      ' ' :: braced (line (deeper indent)) (line indent) (writtenAll quote (deeper indent) items))
  | functionDecl name body =>
    headed "function" (name.toList ++ '(' :: ')' ::
      ' ' :: braced (line (deeper indent)) (line indent) (writtenAll quote (deeper indent) body))
  | classDecl _ _ _ _ | constantDecl _ _ _ => []

def writtenAll (quote : Quote) (indent : List Char) : List Item → List (List Char)
  | [] => []
  | item :: rest => written quote indent item :: writtenAll quote indent rest

end

end Item

def sourceText (quote : Quote) (items : List Item) : String :=
  String.ofList ((Item.writtenAll quote [] items).flatMap (· ++ ['\n']))

end DeclSchema.Syntax
