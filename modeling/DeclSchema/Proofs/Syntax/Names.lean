import DeclSchema.Proofs.Syntax.Spans

/-! # The text of names

A name is read word by word, with points between the words. A bracket in it stands in a comment or
is a brace of an escape, and so a name without comments is balanced and has no bar in it.
-/
namespace DeclSchema.Syntax
open Text TypeText

variable {scope : Scope} {s t u : State} {text rest digits : List Char} {c : Char}

theorem named_of_level (h : ∀ c ∈ text, Level c ∧ c ≠ '|') : Named text := by
  have hmarks : ∀ d ∈ "()<>[]|".toList, ¬ Level d ∨ d = '|' := by decide
  refine .inr ⟨fun c hc hmem => ?_, balanced_of_level fun c hc => (h c hc).1⟩
  exact (hmarks c hmem).elim (absurd (h c hc).1) (h c hc).2

theorem named_braces (h : ∀ c ∈ digits, Level c ∧ c ≠ '|') : Named ('{' :: (digits ++ ['}'])) := by
  have hmarks : ∀ d ∈ "()<>[]|".toList, (¬ Level d ∨ d = '|') ∧ d ≠ '{' ∧ d ≠ '}' := by decide
  refine .inr ⟨fun c hc hmem => ?_, ?_⟩
  · obtain ⟨hlevel, hopen, hclose⟩ := hmarks c hmem
    rcases List.mem_cons.mp hc with rfl | hc
    · exact hopen rfl
    · rcases List.mem_append.mp hc with hc | hc
      · exact hlevel.elim (absurd (h c hc).1) (h c hc).2
      · exact hclose (List.mem_singleton.mp hc)
  · have hinside : balancedFrom (some '{') 1 (digits ++ ['}']) = true := by
      rw [balancedFrom_level_append (fun c hc => (h c hc).1) Int.one_nonneg]
      rfl
    exact hinside

theorem level_of_isHexDigit (h : isHexDigit c = true) : Level c ∧ c ≠ '|' := by
  have hnone : ∀ d ∈ "()<>\x7b\x7d[]".toList, isHexDigit d = false := by decide
  refine ⟨fun hmem => ?_, ne_of_test h (by decide)⟩
  rw [hnone c hmem] at h
  cases h

theorem level_of_isNamePart (h : isNamePart c = true) : Level c ∧ c ≠ '|' := by
  have hnone : ∀ d ∈ "()<>\x7b\x7d[]".toList, isNamePart d = false := by decide
  refine ⟨fun hmem => ?_, ne_of_test h (by decide)⟩
  rw [hnone c hmem] at h
  cases h

theorem named_escape (hcode : text.head? = some 'u') (h : Escape.afterEscape? text = some rest) :
    ∃ front, text = front ++ rest ∧ Named front := by
  obtain ⟨text, rfl⟩ := List.head?_eq_some_iff.mp hcode
  have hone : Named ['u'] := named_of_level (by decide)
  unfold Escape.afterEscape? at h
  split at h
  · cases h
  · rename_i heq
    cases heq
  · rename_i heq
    cases heq
  · rename_i more heq
    cases heq
    split at h
    · have hmore : more = more.takeWhile isHexDigit ++ '}' :: rest := by
        rw [← List.singleton_append, ← afterHead?_eq_some_iff.mp h, List.takeWhile_append_dropWhile]
      refine ⟨'u' :: '{' :: (more.takeWhile isHexDigit ++ ['}']), ?_, ?_⟩
      · conv_lhs => rw [hmore]
        simp
      · exact hone.append (named_braces fun c hc => level_of_isHexDigit (List.mem_takeWhile_imp hc))
    · cases h
  · rename_i a b c d more _ heq
    cases heq
    split at h
    · rename_i hhex
      cases h
      refine ⟨['u', a, b, c, d], rfl, hone.append (named_of_level fun e he => ?_)⟩
      exact level_of_isHexDigit (List.all_eq_true.mp hhex e he)
    · cases h
  · cases h
  · rename_i heq
    cases heq
  · rename_i hother _ heq
    cases heq
    exact (hother rfl).elim

theorem named_readName (text : List Char) : Named (readName text).1 := by
  have hnil : Named [] := named_of_level (by simp)
  fun_induction readName text with
  | case1 => exact hnil
  | case2 c rest hc part after hread ih =>
    rw [hread] at ih
    have hone : Named [c] := named_of_level fun d hd => List.mem_singleton.mp hd ▸ level_of_isNamePart hc
    exact hone.append ih
  | case3 c rest hc hescape more hmore part after hread ih =>
    rw [hread] at ih
    obtain ⟨hmark, hcode⟩ := (Bool.and_eq_true _ _).mp hescape
    obtain rfl := eq_of_beq hmark
    have hone : Named ['\\'] := named_of_level (by decide)
    obtain ⟨front, hfront, hnamed⟩ := named_escape (eq_of_beq hcode) hmore
    rw [hfront, List.length_append, Nat.add_sub_cancel, List.take_left]
    exact hone.append (hnamed.append ih)
  | case4 => exact hnil
  | case5 => exact hnil

theorem named_of_word (h : (readToken text).1.kind = .word) : Named (readToken text).1.text := by
  unfold readToken at h ⊢
  split at h
  · cases h
  · rename_i c rest
    split at h
    · rename_i hname
      rw [if_pos hname]
      have hnamed := named_readName (c :: rest)
      split at h
      · cases h
      · rename_i hread
        rwa [hread] at hnamed
    · split at h
      · cases h
      · split at h
        · dsimp only at h
          split at h <;> cases h
        · split at h
          · cases h
          · split at h
            · split at h <;> cases h
            · split at h <;> cases h

theorem State.Placed.named_upTo (hs : s.Placed) (h : s.token.kind = .word) : Named (s.upTo s.next) := by
  rw [hs] at h
  rw [hs.upTo_next, hs]
  exact named_of_word h

/-- The text goes on with a name behind a gap. -/
theorem State.Ahead.named_upTo (hsu : s.Ahead u) (hut : u.Ahead t) (hfront : Named (s.upTo u))
    (hback : Named (u.upTo t)) : Named (s.upTo t) := by
  obtain ⟨gap, hgap, htill⟩ := hsu.exists_till
  rw [State.Reaches.upTo_trans (.inr hsu) hut, htill]
  exact (hfront.append (.of_filler (hgap.mono (List.nil_subset _)))).append hback

theorem qualifiedName_named {a : Unit} (hs : s.Placed) (h : qualifiedName scope s = .ok (a, t)) :
    s.Ahead t ∧ Named (s.upTo t) := by
  dsimp only [qualifiedName] at h
  obtain ⟨_, u, hdiscard, h⟩ := bind_eq_ok.mp h
  obtain ⟨_, hword, -⟩ := map_eq_ok.mp hdiscard
  obtain ⟨hkind, rfl⟩ := anyWord_eq_ok hword
  obtain ⟨all, hmany, -⟩ := map_eq_ok.mp h
  have hnamed := hs.named_upTo hkind
  -- Behind a word there is nothing more, or a point and words with points between them.
  have hrest : t = s.next ∨ s.next.Ahead t ∧ Named (s.next.upTo t) := by
    refine many_invariant (I := fun u _ t => u.Placed → t = u ∨ u.Ahead t ∧ Named (u.upTo t)) ?_ ?_ hmany
      s.ahead_next.placed
    · intro u t hone _
      rw [atMark_bind, following_bind] at hone
      split at hone
      · cases of_discard_take_bind (of_discard_take_bind hone)
      · cases hone
        exact .inl rfl
    · intro u _ v _ t hone hrest hu
      rw [atMark_bind, following_bind] at hone
      split at hone
      · rename_i hmore
        obtain ⟨hpoint, hkind⟩ := (Bool.and_eq_true _ _).mp hmore
        cases of_discard_take_bind (of_discard_take_bind hone)
        have hnext := u.ahead_next.placed
        have hpoint : Named (u.upTo u.next) := by
          rw [hu.upTo_next, Token.text_of_isMark hpoint]
          exact .of_filler (.of_mark List.mem_cons_self)
        have hword := u.ahead_next.named_upTo u.next.ahead_next hpoint (hnext.named_upTo (eq_of_beq hkind))
        have hahead := u.ahead_next.trans u.next.ahead_next
        rcases hrest u.next.ahead_next.placed with rfl | ⟨hmore, hnamed⟩
        · exact .inr ⟨hahead, hword⟩
        · exact .inr ⟨hahead.trans hmore, hahead.named_upTo hmore hword hnamed⟩
      · cases hone
  rcases hrest with rfl | ⟨hahead, hmore⟩
  · exact ⟨s.ahead_next, hnamed⟩
  · exact ⟨s.ahead_next.trans hahead, s.ahead_next.named_upTo hahead hnamed hmore⟩

end DeclSchema.Syntax
