import DeclSchema.Proofs.Extraction.Classes
import DeclSchema.Proofs.Nesting.Sources

/-! # Declarations in nested bodies

A source can be put into the body of another construct, and that construct into another body, to
any depth. Most constructs are searched for declarations; what stands in the decorator of a field
of a named class, or in the pattern of a constant, is lost.
-/
namespace DeclSchema.Syntax
open Text

abbrev Name := { name : String // isName name = true }

inductive Context
  | namespaceBody (name : Name)
  | functionBody (name : Name)
  | arrowInitializer (name : Name)
  | arrowArgument (callee : Name)
  | ifBlock (condition : Name)
  | forBlock
  | tryBlock
  | methodBody (owner name : Name)
  | fieldInitializer (owner name : Name)
  | classDecorator (decorator owner : Name)
  | fieldDecorator (owner decorator name : Name)
  | parameterDefault (name part : Name)
  | constantDefault (part value : Name)

namespace Context

def classHead (owner : Name) (rest : List Char) : List Char :=
  headed "class" (owner.1.toList ++ ' ' :: '{' :: ' ' :: rest)

def arrow : List Char := ['(', ')', ' ', '=', '>', ' ']

def before : Context → List Char
  | namespaceBody name => headed "namespace" (name.1.toList ++ [' '])
  | functionBody name => headed "function" (name.1.toList ++ ['(', ')', ' '])
  | arrowInitializer name => headed "const" (name.1.toList ++ ' ' :: '=' :: ' ' :: arrow)
  | arrowArgument callee => callee.1.toList ++ '(' :: arrow
  | ifBlock condition => headed "if" ('(' :: (condition.1.toList ++ [')', ' ']))
  | forBlock => headed "for" ['(', ';', ';', ')', ' ']
  | tryBlock => headed "try" []
  | methodBody owner name => classHead owner (name.1.toList ++ ['(', ')', ' '])
  | fieldInitializer owner name => classHead owner (name.1.toList ++ ' ' :: '=' :: ' ' :: arrow)
  | classDecorator decorator _ => '@' :: (decorator.1.toList ++ '(' :: arrow)
  | fieldDecorator owner decorator _ => classHead owner ('@' :: (decorator.1.toList ++ '(' :: arrow))
  | parameterDefault name part =>
    headed "function" (name.1.toList ++ '(' :: '{' :: ' ' :: (part.1.toList ++ ' ' :: '=' :: ' ' :: arrow))
  | constantDefault part _ => headed "const" ('{' :: ' ' :: (part.1.toList ++ ' ' :: '=' :: ' ' :: arrow))

def after : Context → List Char
  | namespaceBody _ | functionBody _ | ifBlock _ | forBlock => []
  | arrowInitializer _ => [';']
  | arrowArgument _ => [')', ';']
  | tryBlock => ' ' :: headed "finally" ['{', '}']
  | methodBody _ _ => [' ', '}']
  | fieldInitializer _ _ => [';', ' ', '}']
  | classDecorator _ owner => ')' :: ' ' :: classHead owner ['}']
  | fieldDecorator _ _ name => ')' :: ' ' :: (name.1.toList ++ [';', ' ', '}'])
  | parameterDefault _ _ => [' ', '}', ')', ' ', '{', '}']
  | constantDefault _ value => ' ' :: '}' :: ' ' :: '=' :: ' ' :: (value.1.toList ++ [';'])

def isSearched : Context → Bool
  | fieldDecorator _ _ _ | constantDefault _ _ => false
  | _ => true

def fill (c : Context) (body : List Char) : List Char := c.before ++ bodyText body c.after

end Context

def fillAll (contexts : List Context) (text : List Char) : List Char := contexts.foldr Context.fill text

def hosted (contexts : List Context) (source : String) : String :=
  String.ofList (fillAll contexts source.toList)

namespace Context
variable {c : Context} {key : String} {body rest : List Char} {scope : Scope} {s : State} {finish : Nat}
  {found : List Item} {depth : Nat}

theorem fill_append (c : Context) (body rest : List Char) :
    c.fill body ++ rest = c.before ++ bodyText body (c.after ++ rest) := by
  simp [fill, bodyText]

/-- A context that is searched meets whatever its body meets. -/
theorem statement_meets (hc : c.isSearched = true)
    (hbody : ∀ inner, depth < inner → MeetsBody (.ofDepth inner) key body rest)
    (h : s.At finish found (c.before ++ bodyText body rest)) :
    Meets key found ((Grammar.ofDepth (depth + 4)).statement scope s) := by
  have hsteady : ∀ d, (Grammar.ofDepth d).Steady := Grammar.ofDepth_steady
  have harrow : ∀ inner, depth < inner → MeetsArrow (.ofDepth (inner + 1)) key body rest :=
    fun inner hinner => (hbody inner hinner).arrow
  show Meets key found (anyStatement (.ofDepth (depth + 3)) scope s)
  cases c with
  | namespaceBody name =>
    have hat : s.At finish found ("namespace".toList ++ ([' '] ++ (name.1.toList ++ ([' '] ++
        bodyText body rest)))) := by simpa [before, headed] using h
    exact anyStatement_namespace name.2 (hbody _ (by omega)) hat
  | functionBody name =>
    have hat : s.At finish found ("function".toList ++ ([' '] ++ (name.1.toList ++ '(' :: ')' :: ([' '] ++
        bodyText body rest)))) := by simpa [before, headed] using h
    exact anyStatement_function name.2 hat (functionDeclaration_body name.2 (hbody _ (by omega)) hat)
  | arrowInitializer name =>
    have hat : s.At finish found ("const".toList ++ ([' '] ++ (name.1.toList ++ ([' '] ++ '=' :: ([' '] ++
        arrowText body rest))))) := by simpa [before, headed, arrow, arrowText] using h
    exact anyStatement_const name.2 (endsName_of_mem (by decide) _) hat
      (variableDeclaration_meets name.2 (harrow (depth + 2) (by omega)) hat)
  | arrowArgument callee =>
    have hat : s.At finish found (callee.1.toList ++ '(' :: arrowText body rest) := by
      simpa [before, arrow, arrowText] using h
    exact anyStatement_call callee.2 (harrow (depth + 1) (by omega)) hat
  | ifBlock condition =>
    have hat : s.At finish found ("if".toList ++ ([' '] ++ '(' :: (condition.1.toList ++ ')' :: ([' '] ++
        bodyText body rest)))) := by simpa [before, headed] using h
    exact anyStatement_if condition.2 (hbody (depth + 2) (by omega)) hat
  | forBlock =>
    have hat : s.At finish found ("for".toList ++ ([' '] ++ '(' :: ';' :: ';' :: ')' :: ([' '] ++
        bodyText body rest))) := by simpa [before, headed] using h
    exact anyStatement_for (hbody (depth + 2) (by omega)) hat
  | tryBlock =>
    have hat : s.At finish found ("try".toList ++ ([' '] ++ bodyText body rest)) := by
      simpa [before, headed] using h
    exact anyStatement_try (hbody _ (by omega)) hat
  | methodBody owner name =>
    have hat : s.At finish found ("class".toList ++ ([' '] ++ (owner.1.toList ++ ([' '] ++ '{' :: ([' '] ++
        (name.1.toList ++ '(' :: ')' :: ([' '] ++ bodyText body rest))))))) := by
      simpa [before, classHead, headed] using h
    exact anyStatement_class owner.2 hat fun u hu =>
      classBody_meets name.2 (endsName_of_mem (by decide) _) hu fun v hv =>
        classMember_method name.2 (hbody _ (by omega)) hv
  | fieldInitializer owner name =>
    have hat : s.At finish found ("class".toList ++ ([' '] ++ (owner.1.toList ++ ([' '] ++ '{' :: ([' '] ++
        (name.1.toList ++ ([' '] ++ '=' :: ([' '] ++ arrowText body rest)))))))) := by
      simpa [before, classHead, headed, arrow, arrowText] using h
    exact anyStatement_class owner.2 hat fun u hu =>
      classBody_meets name.2 (endsName_of_mem (by decide) _) hu fun v hv =>
        classMember_field name.2 (harrow (depth + 2) (by omega)) hv
  | classDecorator decorator owner =>
    have hat : s.At finish found ('@' :: (decorator.1.toList ++ '(' :: arrowText body rest)) := by
      simpa [before, arrow, arrowText] using h
    exact anyStatement_decorated decorator.2 (harrow (depth + 2) (by omega)) hat
  | parameterDefault name part =>
    have hat : s.At finish found ("function".toList ++ ([' '] ++ (name.1.toList ++ '(' :: '{' :: ([' '] ++
        (part.1.toList ++ ([' '] ++ '=' :: ([' '] ++ arrowText body rest))))))) := by
      simpa [before, headed, arrow, arrowText] using h
    exact anyStatement_function name.2 hat
      (functionDeclaration_parameter name.2 part.2 (harrow (depth + 1) (by omega)) hat)
  | fieldDecorator _ _ _ => cases hc
  | constantDefault _ _ => cases hc

/-- A context begins with a word or with a decorator. -/
theorem exists_front (c : Context) : (∃ word m more, c.before = word ++ m :: more ∧ isWord word = true ∧
    (m = ' ' ∨ m = '(')) ∨ ∃ more, c.before = '@' :: more := by
  cases c with
  | classDecorator decorator owner => exact .inr ⟨_, rfl⟩
  | arrowArgument callee => exact .inl ⟨_, '(', _, rfl, isName_word callee.2, .inr rfl⟩
  | _ => exact .inl ⟨_, ' ', _, rfl, by decide, .inl rfl⟩

/-- Behind the body of a searched context stand only marks and names. -/
theorem after_quiet (hc : c.isSearched = true) (hrest : Quiet rest) : Quiet (c.after ++ rest) := by
  have hmarks : ∀ marks : List Char, (∀ m ∈ marks, m ∈ quietMarks) → Quiet (marks ++ rest) := by
    intro marks hmarks
    induction marks with
    | nil => exact hrest
    | cons m marks ih =>
      obtain ⟨hm, hmarks⟩ := List.forall_mem_cons.mp hmarks
      exact .mark hm (ih hmarks)
  cases c with
  | tryBlock =>
    have hfinally : Quiet ("finally".toList ++ ' ' :: (['{', '}'] ++ rest)) :=
      .word (by decide) (by decide) (by decide) (by decide) (hmarks [' ', '{', '}'] (by decide))
    exact .mark (by decide) (by simpa [after, headed] using hfinally)
  | classDecorator decorator owner =>
    have hne : ∀ word ∈ keywords, owner.1.toList ≠ word.toList := fun word hword heq =>
      isName_ne owner.2 hword (String.toList_inj.mp heq)
    have howner : Quiet (owner.1.toList ++ ' ' :: (['{', ' ', '}'] ++ rest)) :=
      .word (isName_word owner.2) (hne _ (by decide)) (hne _ (by decide)) (by decide)
        (hmarks [' ', '{', ' ', '}'] (by decide))
    have hclass : Quiet ("class".toList ++ ' ' :: (owner.1.toList ++ ' ' :: (['{', ' ', '}'] ++ rest))) :=
      .word (by decide) (by decide) (by decide) (by decide) (.mark (by decide) howner)
    have hclose : Quiet (')' :: ' ' :: ("class".toList ++ ' ' :: (owner.1.toList ++ ' ' :: (['{', ' ', '}'] ++ rest)))) :=
      .mark (by decide) (.mark (by decide) hclass)
    simpa [after, classHead, headed] using hclose
  | fieldDecorator _ _ _ => cases hc
  | constantDefault _ _ => cases hc
  | namespaceBody _ | functionBody _ | ifBlock _ | forBlock => exact hrest
  | arrowInitializer _ => exact hmarks [';'] (by decide)
  | arrowArgument _ => exact hmarks [')', ';'] (by decide)
  | methodBody _ _ => exact hmarks [' ', '}'] (by decide)
  | fieldInitializer _ _ => exact hmarks [';', ' ', '}'] (by decide)
  | parameterDefault _ _ => exact hmarks [' ', '}', ')', ' ', '{', '}'] (by decide)

end Context

structure Opens (text : List Char) : Prop where
  noGap : NoGap text
  not_finish : ((readToken text).1.kind == .finish) = false
  not_close : (readToken text).1.isMark "\x7d" = false

theorem Context.opens (c : Context) (rest : List Char) : Opens (c.before ++ rest) := by
  rcases c.exists_front with ⟨word, m, more, hbefore, hword, hm⟩ | ⟨more, hbefore⟩
  · have hends : EndsName (m :: (more ++ rest)) := by
      rcases hm with rfl | rfl <;> exact endsName_of_mem (by decide) _
    rw [hbefore, List.append_assoc, List.cons_append]
    have htoken := readToken_word hword hends
    exact ⟨(Solid.word hword).noGap _, by rw [htoken]; rfl, by rw [htoken]; rfl⟩
  · rw [hbefore]
    refine ⟨?_, rfl, rfl⟩
    rintro c hc
    cases hc
    decide

section Statements
variable {g : Grammar} [g.Steady] {key : String} {text : List Char} {scope : Scope} {s : State} {finish : Nat}
  {found : List Item}

omit [g.Steady] in
theorem soundly_meets {statement : Parser Unit} (h : Meets key found (statement scope s)) :
    Meets key found (soundly statement scope s) := fun _ _ hrun => h (soundly_eq_ok hrun)

omit [g.Steady] in
theorem outerStatement_meets (h : Meets key found (g.statement scope s)) :
    Meets key found (outerStatement g scope s) := fun _ _ hrun => soundly_meets h (outerStatement_eq_ok hrun)

/-- What the first statement of a block meets is met by the block. -/
theorem block_meets (hopens : Opens text) (h : s.At finish found ('{' :: (['\n'] ++ text)))
    (hp : ∀ u, u.At finish found text → Meets key found (g.statement {} u)) :
    Meets key found (block g scope s) := by
  have hat := h.behind_mark (show IsSpace ['\n'] by simp [IsSpace]) hopens.noGap found
  have hstatements : Meets key found (enclosed (statements g) scope (.facing finish found (['\n'] ++ text))) := by
    refine Meets.discard hat.placed (.many hat.placed ?_)
    rw [atEnd_bind, hat.token_eq, hopens.not_finish, hopens.not_close, Bool.or_self,
      if_neg Bool.false_ne_true]
    exact (soundly_meets (hp _ hat)).bind hat.placed
  rw [block, bind_of_ok (expect_at h (by decide) rfl)]
  exact hstatements.bind hat.placed

theorem wholeSource_meets (hopens : Opens text) (h : s.At finish found text)
    (hp : Meets key found (g.statement scope s)) : Meets key found (wholeSource g scope s) := by
  refine Meets.discard h.placed (.many h.placed ?_)
  rw [atKind_bind, h.token_eq, hopens.not_finish, if_neg Bool.false_ne_true]
  exact (outerStatement_meets hp).bind h.placed

end Statements

/-- Wherever this text is read as a body, a definition of the name is met. -/
def MeetsInBodies (key : String) (text : List Char) : Prop :=
  ∀ ⦃depth rest⦄, depthFor text.length ≤ depth → Quiet rest → MeetsBody (.ofDepth depth) key text rest

section Nested
variable {key : String} {text : List Char} {c : Context}

/-- Whatever an accepted source defines is met wherever the source is read as a body. -/
theorem MeetsInBodies.of_parse {items : List Item} (hparse : parse text = .ok items) (hkey : Defines key items) :
    MeetsInBodies key text := fun _ _ _ hrest _ _ _ found hs _ _ hrun => by
  refine ⟨items.reverse, block_found hparse hrest hs hrun, ?_⟩
  exact hkey.mono fun item hitem => List.mem_reverse.mpr hitem

/-- What a body meets is met by the context, in front of any quiet text. -/
theorem Context.statement_fill (hc : c.isSearched = true) (h : MeetsInBodies key text) {depth finish : Nat}
    {scope : Scope} {s : State} {found : List Item} {rest : List Char}
    (hdepth : depthFor (c.fill text).length ≤ depth) (hrest : Quiet rest)
    (hs : s.At finish found (c.fill text ++ rest)) :
    Meets key found ((Grammar.ofDepth depth).statement scope s) := by
  have hlength : (c.fill text).length = c.before.length + (text.length + 4 + c.after.length) := by
    simp only [fill, bodyText, List.length_append, List.length_cons]
    omega
  rw [depthFor, hlength] at hdepth
  obtain ⟨d, rfl⟩ : ∃ d, depth = d + 4 := ⟨depth - 4, by omega⟩
  rw [c.fill_append] at hs
  refine statement_meets hc (fun inner hinner => h ?_ (c.after_quiet hc hrest)) hs
  rw [depthFor]
  omega

theorem MeetsInBodies.fill (hc : c.isSearched = true) (h : MeetsInBodies key text) :
    MeetsInBodies key (c.fill text) := by
  intro depth rest hdepth hrest scope s finish found hs
  have hclose : Quiet ('\n' :: '}' :: rest) := .mark (by decide) (.mark (by decide) hrest)
  have hopens : Opens (c.fill text ++ '\n' :: '}' :: rest) := by
    rw [c.fill_append]
    exact c.opens _
  have hsteady : (Grammar.ofDepth depth).Steady := Grammar.ofDepth_steady depth
  exact block_meets hopens hs fun u hu => Context.statement_fill hc h hdepth hclose hu

theorem MeetsInBodies.fillAll {contexts : List Context} (hcontexts : ∀ c ∈ contexts, c.isSearched = true)
    (h : MeetsInBodies key text) : MeetsInBodies key (fillAll contexts text) := by
  induction contexts with
  | nil => exact h
  | cons c contexts ih =>
    obtain ⟨hc, hcontexts⟩ := List.forall_mem_cons.mp hcontexts
    exact (ih hcontexts).fill hc

end Nested

theorem Context.interpreterLine_fill (c : Context) (text : List Char) : interpreterLine (c.fill text) = [] := by
  have hhead : ∀ d : Char, ∀ more, c.fill text = d :: more → d ≠ '#' := by
    rintro d more hfill rfl
    rcases c.exists_front with ⟨word, m, front, hbefore, hword, -⟩ | ⟨front, hbefore⟩
    · obtain ⟨e, word, rfl⟩ := List.exists_cons_of_ne_nil (isWord_chars hword).1
      have hletter := (isWord_chars hword).2 e (by simp)
      rw [fill, hbefore] at hfill
      rw [(List.cons.inj hfill).1] at hletter
      cases hletter
    · rw [fill, hbefore] at hfill
      exact absurd (List.cons.inj hfill).1 (by decide)
  unfold interpreterLine
  split
  · rename_i hfill
    exact absurd rfl (hhead _ _ hfill)
  · rfl

/-- What is met in a body is defined by every accepted source that has this body. -/
theorem MeetsInBodies.defines {key : String} {text : List Char} {c : Context} {items : List Item}
    (hc : c.isSearched = true) (h : MeetsInBodies key text) (hparse : parse (c.fill text) = .ok items) :
    Defines key items := by
  have hopens : Opens (c.fill text ++ []) := by
    rw [c.fill_append]
    exact c.opens _
  have hsteady : (Grammar.ofDepth (depthFor (c.fill text).length)).Steady := Grammar.ofDepth_steady _
  have hat : (State.first (c.fill text)).At (c.fill text).length [] (c.fill text ++ []) := by
    have hnoGap := hopens.noGap
    rw [List.append_nil] at hnoGap ⊢
    exact first_at (c.interpreterLine_fill text) hnoGap
  have hmeets : Meets key [] (wholeSource (.ofDepth (depthFor (c.fill text).length)) {}
      (State.first (c.fill text))) :=
    wholeSource_meets hopens hat (Context.statement_fill hc h (Nat.le_refl _) .nil hat)
  unfold parse at hparse
  split at hparse
  · rename_i t hrun
    cases hparse
    exact (hmeets hrun).defines.mono fun item hitem => List.mem_reverse.mpr hitem
  · cases hparse

theorem parse_of_parseSource {source : String} {items : List Item} (h : parseSource source = .ok items) :
    parse source.toList = .ok items := by
  unfold parseSource Except.mapError at h
  split at h
  · cases h
  · cases h
    assumption

/-- A name that an accepted source defines is defined by every accepted source that holds it in searched
contexts, at any depth. -/
theorem mem_names_of_hosted {contexts : List Context} {source : String} {items hosting : List Item} {key : String}
    (hcontexts : ∀ c ∈ contexts, c.isSearched = true) (hsource : parseSource source = .ok items)
    (hkey : key ∈ Table.names (Definitions.ofItems items))
    (hhosting : parseSource (hosted contexts source) = .ok hosting) :
    key ∈ Table.names (Definitions.ofItems hosting) := by
  cases contexts with
  | nil =>
    have hsame : hosted [] source = source := String.ofList_toList
    rw [hsame, hsource] at hhosting
    cases hhosting
    exact hkey
  | cons c contexts =>
    obtain ⟨hc, hcontexts⟩ := List.forall_mem_cons.mp hcontexts
    have hbodies : MeetsInBodies key source.toList :=
      .of_parse (parse_of_parseSource hsource) (mem_names_ofItems_iff.mp hkey)
    have hparse := parse_of_parseSource hhosting
    rw [hosted, String.toList_ofList] at hparse
    exact mem_names_ofItems_iff.mpr ((hbodies.fillAll hcontexts).defines hc hparse)

namespace Note

def item : Item := .interfaceDecl "Note" [] []

def source : String := sourceText .double [item]

def shop : Name := ⟨"Shop", by decide⟩

def order : Name := ⟨"order", by decide⟩

def contexts : List Context := [.namespaceBody shop, .methodBody shop order, .arrowArgument order]

example : hosted [.fieldDecorator shop order order] source =
    "class Shop \x7b @order(() => \x7b
interface Note \x7b
\x7d

\x7d) order; \x7d" := by decide +kernel

theorem item_ordinary : ∀ i ∈ [item], i.Ordinary :=
  List.forall_mem_singleton.mpr (.interfaceDecl (by decide) (by simp) (by simp) (by simp))

def namesOf? (text : String) : Option (List String) :=
  (parseSource text).toOption.map fun items => Table.names (Definitions.ofItems items)

theorem exists_of_namesOf? {text : String} {names : List String} (h : namesOf? text = some names) :
    ∃ items, parseSource text = .ok items ∧ Table.names (Definitions.ofItems items) = names := by
  obtain ⟨items, hitems, hnames⟩ := Option.map_eq_some_iff.mp h
  cases hparse : parseSource text with
  | error fault =>
    rw [hparse] at hitems
    cases hitems
  | ok parsed =>
    rw [hparse] at hitems
    cases hitems
    exact ⟨items, rfl, hnames⟩

/-- The note is found in the call, the method and the namespace. -/
theorem mem_names_contexts : (∀ c ∈ contexts, c.isSearched = true) ∧ parseSource source = .ok [item] ∧
    "Note" ∈ Table.names (Definitions.ofItems [item]) ∧
      ∃ hosting, parseSource (hosted contexts source) = .ok hosting ∧
        "Note" ∈ Table.names (Definitions.ofItems hosting) := by
  have hkey : "Note" ∈ Table.names (Definitions.ofItems [item]) := by decide
  have hsource : parseSource source = .ok [item] := parseSource_sourceText .double item_ordinary
  have hnames : namesOf? (hosted contexts source) = some ["Shop", "Note"] := by decide +kernel
  obtain ⟨hosting, hhosting, -⟩ := exists_of_namesOf? hnames
  exact ⟨by decide, hsource, hkey, hosting, hhosting, mem_names_of_hosted (by decide) hsource hkey hhosting⟩

/-- In the decorator of a field, and in the pattern of a constant, the note is lost. -/
theorem not_mem_names_unsearched : parseSource source = .ok [item] ∧
    "Note" ∈ Table.names (Definitions.ofItems [item]) ∧
      (∃ hosting, parseSource (hosted [.fieldDecorator shop order order] source) = .ok hosting ∧
        "Note" ∉ Table.names (Definitions.ofItems hosting)) ∧
      ∃ hosting, parseSource (hosted [.constantDefault order shop] source) = .ok hosting ∧
        "Note" ∉ Table.names (Definitions.ofItems hosting) := by
  have hfield : namesOf? (hosted [.fieldDecorator shop order order] source) = some ["Shop"] := by decide +kernel
  have hconstant : namesOf? (hosted [.constantDefault order shop] source) = some [] := by decide +kernel
  obtain ⟨inField, hinField, hfieldNames⟩ := exists_of_namesOf? hfield
  obtain ⟨inConstant, hinConstant, hconstantNames⟩ := exists_of_namesOf? hconstant
  exact ⟨parseSource_sourceText .double item_ordinary, by decide,
    ⟨inField, hinField, by simp [hfieldNames]⟩, ⟨inConstant, hinConstant, by simp [hconstantNames]⟩⟩

end Note

end DeclSchema.Syntax
