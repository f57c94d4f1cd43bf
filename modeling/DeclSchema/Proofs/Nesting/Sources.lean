import DeclSchema.Proofs.Nesting.Statements
import DeclSchema.Proofs.Extraction.Bodies
import DeclSchema.Proofs.Syntax.WrittenSources

/-! # An accepted source as a block

A block whose braces hold an accepted source, each on a line of its own, declares what the source
declares. The loop over the statements of the source and the one over those of the block go from
place to place side by side.
-/
namespace DeclSchema.Syntax
open Text

variable {b : Body} {scope : Scope} {s t : State} {found : List Item}

/-- The depths of the two grammars do not matter. -/
instance alike_ofDepth (depth depth' : Nat) :
    Grammar.Alike b (Grammar.ofDepth depth) (Grammar.ofDepth depth') := by
  induction depth generalizing depth' with
  | zero => exact ⟨.exhausted _, .exhausted _, .exhausted _, .exhausted _, .exhausted _, .exhausted _, .exhausted _⟩
  | succ depth ih =>
    cases depth' with
    | zero =>
      exact ⟨.to_exhausted _, .to_exhausted _, .to_exhausted _, .to_exhausted _, .to_exhausted _, .to_exhausted _,
        .to_exhausted _⟩
    | succ depth' =>
      have hinner := ih depth'
      exact ⟨inferInstanceAs (Alike b (anyType _) (anyType _)),
        inferInstanceAs (Alike b (Syntax.typeOperand _) (Syntax.typeOperand _)),
        inferInstanceAs (Alike b (anyValue _) (anyValue _)), inferInstanceAs (Alike b (anyValues _) (anyValues _)),
        inferInstanceAs (Alike b (Syntax.operand _) (Syntax.operand _)),
        inferInstanceAs (Alike b (bindingPattern _) (bindingPattern _)),
        inferInstanceAs (Alike b (anyStatement _) (anyStatement _))⟩

structure Barred (s : State) : Prop where
  kind : s.token.kind = .mark ∧ s.token.text = ['\x7d'] ∨ s.token.kind = .stray
  here : ∃ c rest, s.here = c :: rest ∧ (c = '\x7d' ∨ c = '#')

namespace Barred
variable (h : Barred s)
include h

theorem not_isMark {mark : String} (hmark : mark ≠ "\x7d") : s.token.isMark mark = false := by
  rcases h.kind with ⟨-, htext⟩ | hkind
  · have hne : (['\x7d'] == mark.toList) = false :=
      beq_eq_false_iff_ne.mpr fun heq => hmark (String.toList_inj.mp heq.symm)
    rw [Token.isMark, htext, hne, Bool.and_false]
  · exact Token.not_isMark_of_kind (by simp [hkind]) mark

theorem primaryValue_throws (g : Grammar) (scope : Scope) : ∃ fault, primaryValue g scope s = .error fault := by
  have hregex : regexAt? s.here = none := by
    obtain ⟨c, rest, hhere, rfl | rfl⟩ := h.here <;> rw [hhere] <;> rfl
  dsimp only [primaryValue]
  rw [get_bind]
  rcases h.kind with ⟨hkind, -⟩ | hkind
  · rw [hkind]
    dsimp only
    rw [atMark_bind, h.not_isMark (by decide), if_neg Bool.false_ne_true, atMark_bind, h.not_isMark (by decide),
      if_neg Bool.false_ne_true, atMark_bind, h.not_isMark (by decide), if_neg Bool.false_ne_true, atMark_bind,
      h.not_isMark (by decide), if_neg Bool.false_ne_true, atMark_bind, h.not_isMark (by decide),
      if_neg Bool.false_ne_true, hregex]
    dsimp only
    rw [atMark_bind, h.not_isMark (by decide), if_neg Bool.false_ne_true]
    exact Throws.throws scope s
  · rw [hkind]
    exact Throws.throws (p := (missing "identifier" : Parser Operand)) scope s

theorem value_throws (depth : Nat) (scope : Scope) : ∃ fault, (Grammar.ofDepth depth).value scope s = .error fault := by
  cases depth with
  | zero => exact ⟨_, rfl⟩
  | succ depth =>
    obtain ⟨fault, hfault⟩ := h.primaryValue_throws (Grammar.ofDepth depth) scope
    show ∃ fault, anyValue (Grammar.ofDepth depth) scope s = .error fault
    refine ⟨fault, bind_of_error ?_⟩
    have hsigns : ["+", "!", "~", "++", "--"].any s.token.isMark = false := by
      simp [h.not_isMark (show "+" ≠ "\x7d" by decide), h.not_isMark (show "!" ≠ "\x7d" by decide),
        h.not_isMark (show "~" ≠ "\x7d" by decide), h.not_isMark (show "++" ≠ "\x7d" by decide),
        h.not_isMark (show "--" ≠ "\x7d" by decide)]
    dsimp only [Syntax.operand]
    rw [get_bind, accept_bind, h.not_isMark (by decide), if_neg Bool.false_ne_true, if_neg Bool.false_ne_true, hsigns,
      if_neg Bool.false_ne_true, bind_of_error hfault]

theorem statement_throws (depth : Nat) (scope : Scope) :
    ∃ fault, (Grammar.ofDepth depth).statement scope s = .error fault := by
  cases depth with
  | zero => exact ⟨_, rfl⟩
  | succ depth =>
    obtain ⟨fault, hfault⟩ := h.value_throws depth { lineEnd := .afterValue }
    have hvalues : (discard (inScope (fun _ => { lineEnd := .afterValue }) (anyValues (Grammar.ofDepth depth))) :
        Parser Unit) scope s = .error fault := discard_of_error (bind_of_error hfault)
    have hcomment : commentMarks.any (·.isPrefixOf s.here) = false := by
      obtain ⟨c, rest, hhere, rfl | rfl⟩ := h.here <;> rw [hhere] <;> rfl
    have hword : (s.token.kind == .word) = false := by
      rcases h.kind with ⟨hkind, -⟩ | hkind <;> rw [hkind] <;> rfl
    show ∃ fault, anyStatement (Grammar.ofDepth depth) scope s = .error fault
    unfold anyStatement
    rw [get_bind, accept_bind, h.not_isMark (by decide), if_neg Bool.false_ne_true, if_neg Bool.false_ne_true,
      hcomment, if_neg Bool.false_ne_true, atMark_bind, h.not_isMark (by decide), if_neg Bool.false_ne_true,
      atMark_bind, h.not_isMark (by decide), if_neg Bool.false_ne_true, atKind_bind, hword, Bool.not_false, if_pos rfl,
      valueStatement, bind_of_error hvalues]
    exact ⟨_, rfl⟩

end Barred

theorem barred_of_close (hs : s.Placed) (h : s.token.isMark "\x7d" = true) : Barred s := by
  have htext := Token.text_of_isMark h
  refine ⟨.inl ⟨Token.kind_of_isMark h, htext⟩, '\x7d', (readToken s.here).2, ?_, .inl rfl⟩
  have happend := readToken_append s.here
  rw [← hs, htext] at happend
  exact happend.symm

/-- Statements of the source that are read alone are read in the block, too. -/
theorem statements_nested {depth depth' n m : Nat} (x : b.Places) {before : List Item} {all all' : List Unit}
    (hfound : x.nested.found = x.alone.found ++ before)
    (halone : manyUpTo (anotherStatement (Grammar.ofDepth depth)) n {} x.alone = .ok (all, s))
    (hnested : manyUpTo (do if ← atEnd then return none else return some (← soundly (Grammar.ofDepth depth').statement))
      m {} x.nested = .ok (all', t)) :
    t.found = s.found ++ before := by
  induction n generalizing m x all all' with
  | zero => cases halone
  | succ n ih =>
    cases m with
    | zero => cases hnested
    | succ m =>
      obtain ⟨step, u, hstep, hrest⟩ := bind_eq_ok.mp halone
      obtain ⟨step', v, hstep', hrest'⟩ := bind_eq_ok.mp hnested
      rw [anotherStatement, atKind_bind] at hstep
      rw [atEnd_bind] at hstep'
      by_cases hfinish : x.alone.token.kind = .finish
      · rw [hfinish, if_pos (beq_self_eq_true _)] at hstep
        rw [x.token.eq_close hfinish, if_pos (show (_ || _) = true from rfl)] at hstep'
        cases hstep
        cases hstep'
        cases hrest
        cases hrest'
        exact hfound
      · rw [if_neg (by simpa using hfinish)] at hstep
        obtain ⟨_, _, houter, hpure⟩ := bind_eq_ok.mp hstep
        cases hpure
        have hstatement := soundly_eq_ok (outerStatement_eq_ok houter)
        have hclose : x.alone.token.isMark "\x7d" = false := by
          refine Bool.eq_false_iff.mpr fun hclose => ?_
          obtain ⟨fault, hfault⟩ := (barred_of_close x.beside.alone hclose).statement_throws depth {}
          rw [hfault] at hstatement
          cases hstatement
        rw [x.token.isMark_of_ne hfinish, x.token.kind_of_ne hfinish, hclose, beq_eq_false_iff_ne.mpr hfinish,
          Bool.or_self, if_neg Bool.false_ne_true] at hstep'
        obtain ⟨_, _, hsoundly, hpure⟩ := bind_eq_ok.mp hstep'
        cases hpure
        have hstatement' := soundly_eq_ok hsoundly
        have halike : Alike b (Grammar.ofDepth depth).statement (Grammar.ofDepth depth').statement := inferInstance
        have hout := (halike.at_places x).run {} before hfound
        rw [hstatement, hstatement'] at hout
        cases hout with
        | both _ beside found =>
          obtain ⟨_, _, hmore, hpure⟩ := bind_eq_ok.mp hrest
          obtain ⟨_, _, hmore', hpure'⟩ := bind_eq_ok.mp hrest'
          cases hpure
          cases hpure'
          exact ih ⟨u, v, beside⟩ found hmore hmore'

/-- The line of the interpreter is none in a block. -/
theorem statements_hash {depth m : Nat} {rest : List Char} (hhere : s.here = '#' :: '!' :: rest) (hs : s.Placed)
    {all : List Unit} (hrun : manyUpTo (do
      if ← atEnd then return none else return some (← soundly (Grammar.ofDepth depth).statement)) m scope s = .ok (all, t)) :
    False := by
  have htoken : s.token = ⟨.stray, ['#']⟩ := by
    rw [hs, hhere]
    rfl
  have hbarred : Barred s := ⟨.inr (by rw [htoken]), '#', _, hhere, .inr rfl⟩
  obtain ⟨fault, hfault⟩ := hbarred.statement_throws depth scope
  cases m with
  | zero => cases hrun
  | succ m =>
    obtain ⟨_, _, hstep, -⟩ := bind_eq_ok.mp hrun
    rw [atEnd_bind, htoken] at hstep
    rw [if_neg (by decide)] at hstep
    obtain ⟨_, _, hsoundly, -⟩ := bind_eq_ok.mp hstep
    rw [soundly_eq_ok hsoundly] at hfault
    cases hfault

/-- The source alone and behind the brace of a block. -/
theorem beside_first {source rest : List Char} (hrest : Quiet rest) (offset : Nat)
    (hline : interpreterLine source = []) : Body.Beside ⟨offset + 1, source.length, rest, hrest⟩ (State.first source)
      (State.start offset found ('\n' :: (source ++ '\n' :: '\x7d' :: rest))) := by
  have hslash : '/' ∉ '\n' :: '\x7d' :: rest :=
    (Quiet.mark (by decide) (.mark (by decide) hrest)).not_mem (by decide) (by decide) (by decide)
  have htotal := readGap_total source
  have hfirst : State.first source =
      { State.start 0 [] source with newline := true } := by
    rw [State.first, hline]
    rfl
  have hgap : readGap 0 false ('\n' :: (source ++ '\n' :: '\x7d' :: rest)) =
      readGap 1 true (source ++ '\n' :: '\x7d' :: rest) := by
    rw [readGap.eq_def]
    simp [show isGapChar '\n' = true by decide]
  have hsource := readGap_add 1 true 0 false source
  rw [Bool.true_or, Nat.add_zero, Bool.true_or] at hsource
  rw [hfirst]
  refine ⟨rfl, rfl, ?_, Nat.zero_le _, ?_, ?_⟩
  · show 0 + (readGap 0 false source).width + (readGap 0 false source).rest.length = source.length
    omega
  · show offset - (offset + 1) = 0
    omega
  · rw [State.start, State.start, hgap, readGap_append hslash, hsource]
    by_cases hnil : (readGap 0 false source).rest = []
    · have hbrace : readGap (1 + (readGap 0 false source).width + 1) true ('\x7d' :: rest) =
          ⟨1 + (readGap 0 false source).width + 1, true, '\x7d' :: rest⟩ :=
        readGap_of_noGap (noGap_mark (by decide) _) _ _
      rw [if_pos hnil, hbrace]
      rw [hnil, List.length_nil] at htotal
      refine .atEnd hnil rfl rfl ?_
      dsimp only
      omega
    · rw [if_neg hnil]
      refine .inside hnil rfl ?_ rfl
      dsimp only
      omega

/-- A block with an accepted source in it adds the declarations of the source. -/
theorem block_found {source : List Char} {items : List Item} (hparse : parse source = .ok items) {depth finish : Nat}
    {rest : List Char} (hrest : Quiet rest) (h : s.At finish found (bodyText source rest)) {a : Unit}
    (hrun : block (Grammar.ofDepth depth) scope s = .ok (a, t)) : t.found = items.reverse ++ found := by
  obtain ⟨_, u, hopen, hinside⟩ := bind_eq_ok.mp hrun
  obtain ⟨_, v, hstatements, hclose⟩ := bind_eq_ok.mp hinside
  rw [expect_at h (by decide) rfl] at hopen
  cases hopen
  obtain ⟨-, rfl⟩ := expect_eq_ok hclose
  obtain ⟨all', hmany, -⟩ := map_eq_ok.mp hstatements
  show v.found = items.reverse ++ found
  by_cases hline : interpreterLine source = []
  · unfold parse at hparse
    split at hparse
    · rename_i final hwhole
      cases hparse
      obtain ⟨all, halone, -⟩ := map_eq_ok.mp hwhole
      let x : Body.Places ⟨_, source.length, rest, hrest⟩ :=
        ⟨_, .facing finish found ('\n' :: (source ++ '\n' :: '\x7d' :: rest)), beside_first hrest _ hline⟩
      rw [List.reverse_reverse]
      exact statements_nested x rfl halone hmany
    · cases hparse
  · obtain ⟨more, rfl⟩ : ∃ more, source = '#' :: '!' :: more := by
      unfold interpreterLine at hline
      split at hline
      · exact ⟨_, rfl⟩
      · exact absurd rfl hline
    have hnoGap : NoGap ('#' :: '!' :: (more ++ '\n' :: '\x7d' :: rest)) := by
      rintro c hc
      cases hc
      decide
    obtain ⟨breaks, hgap⟩ := readGap_space (show IsSpace ['\n'] by simp [IsSpace]) hnoGap 0 false
    have hhere : (State.facing finish found ('\n' :: ('#' :: '!' :: more ++ '\n' :: '\x7d' :: rest))).here =
        '#' :: '!' :: (more ++ '\n' :: '\x7d' :: rest) := congrArg Gap.rest hgap
    exact (statements_hash hhere rfl hmany).elim

end DeclSchema.Syntax
