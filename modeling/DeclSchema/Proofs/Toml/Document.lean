import DeclSchema.Proofs.Table
import DeclSchema.Proofs.Toml.Quoted
import DeclSchema.Toml.Document
import Mathlib.Algebra.GroupWithZero.Nat

/-! # Documents are read back

A document that consists of sections, each with a header and with one entry on every line, is
read as the table of its sections, as long as no two sections and no two entries of one
section have the same name.
-/
namespace DeclSchema.Toml
open Text

variable {c : Char} {key s rest text : List Char} {v : Toml} {n : ℕ} {draft draft' : Draft}

structure IsBare (key : List Char) : Prop where
  nonempty : key ≠ []
  plain : ∀ c ∈ key, isBareKey c = true

instance (key : List Char) : Decidable (IsBare key) :=
  decidable_of_iff (key ≠ [] ∧ ∀ c ∈ key, isBareKey c = true)
    ⟨fun h => ⟨h.1, h.2⟩, fun h => ⟨h.1, h.2⟩⟩

theorem skipSpace_cons (h : isSpace c = false) : skipSpace (c :: s) = c :: s := by
  rw [skipSpace, List.dropWhile_cons, h]
  rfl

theorem isSpace_of_isBareKey (h : isBareKey c = true) : isSpace c = false := by
  rw [isSpace, Bool.or_eq_false_iff, beq_eq_false_iff_ne, beq_eq_false_iff_ne]
  exact ⟨ne_of_test h (by decide), ne_of_test h (by decide)⟩

theorem IsBare.skipSpace_append (h : IsBare key) (rest : List Char) :
    skipSpace (key ++ rest) = key ++ rest := by
  cases key with
  | nil => exact absurd rfl h.nonempty
  | cons c key => exact skipSpace_cons (isSpace_of_isBareKey (h.plain c List.mem_cons_self))

theorem IsBare.append_ne (h : IsBare key) {d : Char} (hd : isBareKey d = false)
    (rest more : List Char) : key ++ rest ≠ d :: more := by
  cases key with
  | nil => exact absurd rfl h.nonempty
  | cons c key =>
    exact fun heq => ne_of_test (h.plain c List.mem_cons_self) hd (List.cons.inj heq).1

theorem keyPart?_bare (h : IsBare key)
    (hrest : ∀ c, rest.head? = some c → isBareKey c = false) :
    keyPart? (key ++ rest) = some (String.ofList key, rest) := by
  obtain ⟨htake, hdrop⟩ := takeWhile_append_of_stop h.plain hrest
  rw [keyPart?.eq_3 _ (h.append_ne (by decide) rest) (h.append_ne (by decide) rest), htake, hdrop]
  split
  · exact absurd rfl h.nonempty
  · rfl

theorem keyPath?_bare (h : IsBare key) (hrest : ∀ c, rest.head? = some c → isBareKey c = false)
    {mark : Char} {more : List Char} (hmark : skipSpace rest = mark :: more) (hdot : mark ≠ '.')
    (n : ℕ) : keyPath? (n + 1) (key ++ rest) = some ([String.ofList key], mark :: more) := by
  rw [keyPath?, h.skipSpace_append, keyPart?_bare h hrest, Option.bind_some]
  dsimp only
  rw [hmark]
  split
  · rename_i heq
    exact absurd (List.cons.inj heq).1 hdot
  · rfl

/-- A text from which a value is read at the end of a line. -/
structure Written (text : List Char) (v : Toml) : Prop where
  begins : ∀ rest, skipSpace (text ++ rest) = text ++ rest
  read : ∀ rest, value? depthLimit (text ++ '\n' :: rest) = some (v, '\n' :: rest)

theorem exists_head_quote (s : List Char) :
    ∃ mark more, quote s = mark :: more ∧ (mark = '"' ∨ mark = '\'') := by
  dsimp only [quote]
  split_ifs
  exacts [⟨_, _, rfl, .inr rfl⟩, ⟨_, _, rfl, .inr rfl⟩, ⟨_, _, rfl, .inr rfl⟩,
    ⟨_, _, rfl, .inl rfl⟩, ⟨_, _, rfl, .inl rfl⟩]

theorem written_quote (s : String) : Written (quote s.toList) (.string s) := by
  obtain ⟨mark, more, hquote, hmark⟩ := exists_head_quote s.toList
  constructor
  · intro rest
    rw [hquote]
    exact skipSpace_cons (by rcases hmark with rfl | rfl <;> rfl)
  · intro rest
    have hread : unquoted? (quote s.toList ++ '\n' :: rest) = some (s.toList, '\n' :: rest) :=
      unquoted?_quote s.toList nofun nofun
    rw [hquote, List.cons_append] at hread
    rw [hquote, List.cons_append, depthLimit, value?.eq_4, if_pos, hread]
    · simp
    all_goals rcases hmark with rfl | rfl <;> decide

theorem bareText_append (h : ∀ c ∈ text, isBareValue c = true) (rest : List Char) :
    bareText (text ++ '\n' :: rest) = (text, '\n' :: rest) := by
  have hfeed : ∀ c, ('\n' :: rest).head? = some c → isBareValue c = false := by
    rintro _ ⟨⟩
    decide
  obtain ⟨htake, hdrop⟩ := takeWhile_append_of_stop h hfeed
  dsimp only [bareText]
  rw [htake, hdrop]
  split
  · rename_i heq
    cases heq
  · rfl

theorem written_bare (hne : text ≠ []) (h : ∀ c ∈ text, isBareValue c = true)
    (hv : bareValue? text = some v) : Written text v := by
  cases text with
  | nil => exact absurd rfl hne
  | cons c text =>
    have hc := h c List.mem_cons_self
    constructor
    · intro rest
      refine skipSpace_cons ?_
      rw [isSpace, Bool.or_eq_false_iff, beq_eq_false_iff_ne, beq_eq_false_iff_ne]
      exact ⟨ne_of_test hc (by decide), ne_of_test hc (by decide)⟩
    · intro rest
      have htext := bareText_append h rest
      rw [List.cons_append] at htext
      rw [List.cons_append, depthLimit, value?.eq_4, if_neg, htext]
      · dsimp only
        rw [hv]
        rfl
      · simp [ne_of_test hc (d := '"') (by decide), ne_of_test hc (d := '\'') (by decide)]
      · exact ne_of_test hc (by decide)
      · exact ne_of_test hc (by decide)

theorem written_boolean (b : Bool) :
    Written (if b then "true" else "false").toList (.boolean b) := by
  cases b with
  | true => exact written_bare (by decide) (by decide) rfl
  | false => exact written_bare (by decide) (by decide) rfl

structure BeginsLine (c : Char) : Prop where
  notSpace : isSpace c = false
  notFeed : c ≠ '\n'
  notReturn : c ≠ '\r'
  notComment : c ≠ '#'

theorem BeginsLine.of_isBareKey (h : isBareKey c = true) : BeginsLine c where
  notSpace := isSpace_of_isBareKey h
  notFeed := ne_of_test h (by decide)
  notReturn := ne_of_test h (by decide)
  notComment := ne_of_test h (by decide)

theorem BeginsLine.skipLines? (h : BeginsLine c) (n : ℕ) (s : List Char) :
    skipLines? (n + 1) (c :: s) = some (c :: s) := by
  have hend : afterLineEnd? (c :: s) = none := by
    rw [afterLineEnd?.eq_3]
    · exact fun _ heq => h.notFeed (List.cons.inj heq).1
    · exact fun _ heq => h.notReturn (List.cons.inj heq).1
  rw [Toml.skipLines?, skipSpace_cons h.notSpace, hend]
  split
  · rename_i heq
    cases heq
  · split
    · rename_i heq
      exact absurd (List.cons.inj heq).1 h.notComment
    · rfl

theorem lines?_nil (n : ℕ) (draft : Draft) : lines? (n + 1) draft [] = some draft := rfl

theorem lines?_blank (n : ℕ) (draft : Draft) (s : List Char) :
    lines? (n + 1) draft ('\n' :: s) = lines? (n + 1) draft s := rfl

theorem lines?_of_line? (hc : BeginsLine c)
    (h : line? draft (c :: s) = some (draft', '\n' :: rest)) :
    lines? (n + 1) draft (c :: s) = lines? n draft' rest := by
  rw [lines?, hc.skipLines?]
  show (line? draft (c :: s)).bind _ = _
  rw [h]
  rfl

theorem line?_header (h : IsBare key) (draft : Draft) (rest : List Char) :
    line? draft ('[' :: (key ++ ']' :: '\n' :: rest)) =
      (draft.enter [String.ofList key] false).map fun draft => (draft, '\n' :: rest) := by
  have hpath (n : ℕ) : keyPath? (n + 1) (key ++ ']' :: '\n' :: rest) =
      some ([String.ofList key], ']' :: '\n' :: rest) :=
    keyPath?_bare h (by rintro _ ⟨⟩; decide) rfl (by decide) n
  rw [line?.eq_2 _ _ (h.append_ne (by decide) _), hpath]
  rfl

theorem line?_entry (h : IsBare key) (hv : Written text v) (draft : Draft) (rest : List Char) :
    line? draft (key ++ (" = ".toList ++ (text ++ '\n' :: rest))) =
      (draft.write [String.ofList key] v).map fun draft => (draft, '\n' :: rest) := by
  have hpath (n : ℕ) : keyPath? (n + 1) (key ++ (" = ".toList ++ (text ++ '\n' :: rest))) =
      some ([String.ofList key], '=' :: ' ' :: (text ++ '\n' :: rest)) :=
    keyPath?_bare h (by rintro _ ⟨⟩; decide) rfl (by decide) n
  have hvalue : keyValue? (value? depthLimit) (key ++ (" = ".toList ++ (text ++ '\n' :: rest))) =
      some (([String.ofList key], v), '\n' :: rest) := by
    rw [keyValue?, hpath]
    show (value? depthLimit (skipSpace (text ++ '\n' :: rest))).map _ = _
    rw [hv.begins, hv.read]
    rfl
  rw [line?.eq_3 _ _ (fun more => h.append_ne (by decide) _ _) (h.append_ne (by decide) _), hvalue]
  rfl

structure Entry where
  name : String
  text : List Char
  value : Toml
  bare : IsBare name.toList
  written : Written text value

structure Section where
  name : String
  entries : List Entry
  bare : IsBare name.toList
  distinct : (entries.map Entry.name).Nodup

def Entry.line (entry : Entry) : List Char :=
  entry.name.toList ++ (" = ".toList ++ (entry.text ++ ['\n']))

def Section.lines (part : Section) : List Char :=
  '[' :: (part.name.toList ++ ']' :: '\n' :: part.entries.flatMap Entry.line)

def entryNodes (entries : List Entry) : Nodes :=
  entries.map fun entry => (entry.name, .value entry.value)

def Section.node (part : Section) : String × Node :=
  (part.name, .table .header (entryNodes part.entries))

def Section.table (part : Section) : String × Toml :=
  (part.name, .table (part.entries.map fun entry => (entry.name, entry.value)))

/-- In the middle of a section: what came before, its header, and the entries up to here. -/
def Draft.within (done : Nodes) (name : String) (inner : Nodes) : Draft :=
  ⟨done ++ [(name, .table .header inner)], [name]⟩

theorem Draft.enter_new {name : String} (h : name ∉ Table.names draft.nodes) :
    draft.enter [name] false = some (Draft.within draft.nodes name []) := by
  show (Nodes.openTable name draft.nodes).map _ = _
  rw [Nodes.openTable, Nodes.update, Table.value?_eq_none_iff.mpr h]
  dsimp only
  rw [Option.map_some, Table.put_of_not_mem _ h]
  rfl

theorem Draft.write_new {done inner : Nodes} {name key : String} (h : name ∉ Table.names done)
    (hkey : key ∉ Table.names inner) (v : Toml) :
    (Draft.within done name inner).write [key] v =
      some (Draft.within done name (inner ++ [(key, .value v)])) := by
  have hinner : Nodes.insert true inner v [key] = some (inner ++ [(key, .value v)]) := by
    rw [Nodes.insert, if_pos rfl, Nodes.update, Table.value?_eq_none_iff.mpr hkey]
    dsimp only
    rw [Option.map_some, Table.put_of_not_mem _ hkey]
  have hold : Table.value? (done ++ [(name, .table .header inner)]) name =
      some (.table .header inner) := by
    rw [Table.value?_append, Table.value?_eq_none_iff.mpr h, Option.none_or, Table.value?_cons,
      if_pos rfl]
  show (Nodes.update (done ++ [(name, .table .header inner)]) name _).map _ = _
  rw [Nodes.update, hold]
  show (((Nodes.insert true inner v [key]).map (Node.table .header)).map _).map _ = _
  rw [hinner, Option.map_some, Option.map_some, Table.put_append_singleton h]
  rfl

theorem lines?_entry {done inner : Nodes} {name : String} (h : name ∉ Table.names done)
    (entry : Entry) (hentry : entry.name ∉ Table.names inner) (n : ℕ) (rest : List Char) :
    lines? (n + 1) (Draft.within done name inner) (entry.line ++ rest) =
      lines? n (Draft.within done name (inner ++ [(entry.name, .value entry.value)])) rest := by
  have hline : entry.line ++ rest =
      entry.name.toList ++ (" = ".toList ++ (entry.text ++ '\n' :: rest)) := by
    simp [Entry.line]
  have hread := line?_entry entry.bare entry.written (Draft.within done name inner) rest
  rw [String.ofList_toList, Draft.write_new h hentry, Option.map_some] at hread
  obtain ⟨c, more, hname⟩ := List.exists_cons_of_ne_nil entry.bare.nonempty
  have hc := entry.bare.plain c (by rw [hname]; exact List.mem_cons_self)
  rw [hline]
  rw [hname, List.cons_append] at hread ⊢
  exact lines?_of_line? (.of_isBareKey hc) hread

/-- Entries with new names are added to their section one after another. -/
theorem lines?_entries {done : Nodes} {name : String} (h : name ∉ Table.names done)
    (entries : List Entry) {inner : Nodes}
    (hnames : (Table.names inner ++ entries.map Entry.name).Nodup) (n : ℕ) (rest : List Char) :
    lines? (n + entries.length) (Draft.within done name inner)
        (entries.flatMap Entry.line ++ rest) =
      lines? n (Draft.within done name (inner ++ entryNodes entries)) rest := by
  induction entries generalizing inner with
  | nil => rw [entryNodes, List.map_nil, List.append_nil]; rfl
  | cons entry entries ih =>
    have hentry : entry.name ∉ Table.names inner := fun hmem =>
      (List.nodup_append.mp hnames).2.2 _ hmem _ List.mem_cons_self rfl
    have hrest : (Table.names (inner ++ [(entry.name, Node.value entry.value)]) ++
        entries.map Entry.name).Nodup := by
      simpa [Table.names] using hnames
    rw [List.length_cons, ← Nat.add_assoc, List.flatMap_cons, List.append_assoc,
      lines?_entry h entry hentry, ih hrest, List.append_assoc]
    rfl

theorem lines?_section {done : Nodes} {path : List String} (part : Section)
    (h : part.name ∉ Table.names done) (n : ℕ) (rest : List Char) :
    lines? (n + part.entries.length + 1) ⟨done, path⟩ (part.lines ++ rest) =
      lines? n ⟨done ++ [part.node], [part.name]⟩ rest := by
  have hread := line?_header part.bare ⟨done, path⟩ (part.entries.flatMap Entry.line ++ rest)
  rw [String.ofList_toList, Draft.enter_new h, Option.map_some] at hread
  have hlines : part.lines ++ rest =
      '[' :: (part.name.toList ++ ']' :: '\n' :: (part.entries.flatMap Entry.line ++ rest)) := by
    simp [Section.lines]
  rw [hlines, lines?_of_line? ⟨rfl, by decide, by decide, by decide⟩ hread]
  exact @lines?_entries done part.name h part.entries [] part.distinct n rest

def documentLines (parts : List Section) : List Char :=
  joinWith ['\n'] (parts.map Section.lines)

def lineCount (parts : List Section) : ℕ := (parts.map fun part => part.entries.length + 1).sum

theorem documentLines_cons (part : Section) (parts : List Section) :
    ∃ gap, (gap = [] ∨ gap = ['\n']) ∧
      documentLines (part :: parts) = part.lines ++ (gap ++ documentLines parts) := by
  cases parts with
  | nil => exact ⟨[], .inl rfl, by simp [documentLines, joinWith]⟩
  | cons next parts => exact ⟨['\n'], .inr rfl, List.append_assoc _ _ _⟩

/-- The sections are added one after another, which takes one step for each line. -/
theorem lines?_document (parts : List Section) (done : Nodes) (path : List String)
    (h : (Table.names done ++ parts.map Section.name).Nodup) (n : ℕ) :
    ∃ path', lines? (n + lineCount parts + 1) ⟨done, path⟩ (documentLines parts) =
      some ⟨done ++ parts.map Section.node, path'⟩ := by
  -- What was read grows with each section; the fuel that is left over stays the same.
  induction parts generalizing done path with
  | nil => exact ⟨path, by rw [List.map_nil, List.append_nil]; exact lines?_nil n _⟩
  | cons part parts ih =>
    obtain ⟨gap, hgap, hlines⟩ := documentLines_cons part parts
    have hpart : part.name ∉ Table.names done := fun hmem =>
      (List.nodup_append.mp h).2.2 _ hmem _ List.mem_cons_self rfl
    have hrest : (Table.names (done ++ [part.node]) ++ parts.map Section.name).Nodup := by
      simpa [Table.names, Section.node] using h
    obtain ⟨path', hread⟩ := ih (done ++ [part.node]) [part.name] hrest
    have hcount : n + lineCount (part :: parts) + 1 =
        n + lineCount parts + 1 + part.entries.length + 1 := by
      simp only [lineCount, List.map_cons, List.sum_cons]
      omega
    have hskip : lines? (n + lineCount parts + 1) ⟨done ++ [part.node], [part.name]⟩
        (gap ++ documentLines parts) =
          lines? (n + lineCount parts + 1) ⟨done ++ [part.node], [part.name]⟩
            (documentLines parts) := by
      rcases hgap with rfl | rfl
      · rfl
      · exact lines?_blank _ _ _
    refine ⟨path', ?_⟩
    rw [hcount, hlines, lines?_section part hpart, hskip, hread, List.append_assoc]
    rfl

theorem length_entries_le (entries : List Entry) :
    entries.length ≤ (entries.flatMap Entry.line).length := by
  induction entries with
  | nil => exact Nat.le_refl 0
  | cons entry entries ih =>
    simp only [List.flatMap_cons, List.length_cons, List.length_append, Entry.line, List.length_nil]
    omega

theorem lineCount_le (parts : List Section) : lineCount parts ≤ (documentLines parts).length := by
  induction parts with
  | nil => exact Nat.le_refl 0
  | cons part parts ih =>
    obtain ⟨gap, -, hlines⟩ := documentLines_cons part parts
    have hentries := length_entries_le part.entries
    rw [hlines]
    simp only [lineCount, Section.lines, List.map_cons, List.sum_cons, List.length_append,
      List.length_cons] at ih ⊢
    omega

theorem finishAll_entryNodes (entries : List Entry) : finishAll (entryNodes entries) =
    entries.map fun entry => (entry.name, entry.value) := by
  induction entries with
  | nil => rfl
  | cons entry entries ih =>
    show (entry.name, entry.value) :: finishAll (entryNodes entries) = _
    rw [ih]
    rfl

theorem finishAll_sections (parts : List Section) :
    finishAll (parts.map Section.node) = parts.map Section.table := by
  induction parts with
  | nil => rfl
  | cons part parts ih =>
    show (part.name, .table (finishAll (entryNodes part.entries))) ::
      finishAll (parts.map Section.node) = _
    rw [ih, finishAll_entryNodes]
    rfl

/-- A document of sections with different names is the table of these sections. -/
theorem read?_document {parts : List Section} (h : (parts.map Section.name).Nodup) :
    read? (documentLines parts) = some (parts.map Section.table) := by
  obtain ⟨n, hn⟩ := Nat.exists_eq_add_of_le' (lineCount_le parts)
  obtain ⟨path, hread⟩ := lines?_document parts [] [] h n
  rw [read?, hn, Draft.empty, hread, Option.map_some, List.nil_append, finishAll_sections]

end DeclSchema.Toml
