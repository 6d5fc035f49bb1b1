import Statechart.Proofs.Action.Trailing
import Statechart.Proofs.Label.Outcomes
import Statechart.Proofs.Label.Split

/-!
Comments behind the parts of labels. What splits a label knows no comments: to it a comment is text
like any other. A comment behind a label body is text of the last section, unless one of its words
is a keyword, which begins a heading that is not ended (`Section.read_commented`). A comment behind
a transition action is text of it (`Parts.read_commented`). The blanks in front of the comment have
to be such as may stand in a label.
-/

namespace Statechart.Label

/-- A comment behind a blank, without the blanks at its end. -/
def comment (w : String) : String :=
  " //" ++ String.ofList ((' ' :: w.toList).rdropWhile Text.isBlank)

/-- Words of letters and digits, with blanks between them. -/
def Wordy (w : String) : Prop := ∀ c ∈ w.toList, c.isAlphanum = true ∨ c = ' '

theorem toList_comment (w : String) :
    (comment w).toList = [' ', '/', '/'] ++ (' ' :: w.toList).rdropWhile Text.isBlank := by
  rw [comment, String.toList_append, String.toList_ofList (l := List.rdropWhile ..)]
  rfl

theorem isWord_of_isAlphanum {c : Char} (h : c.isAlphanum = true) : Text.isWord c = true := by
  refine Text.isWord_of_isAlphanum h ?_
  have hsmall {n : UInt32} (hn : n.toNat < 128) (hle : c.val ≤ n) : c.toNat < 128 :=
    Nat.lt_of_le_of_lt (UInt32.le_iff_toNat_le.mp hle) hn
  rcases (Bool.or_eq_true _ _).mp h with halpha | hdigit
  · rcases (Bool.or_eq_true _ _).mp halpha with hupper | hlower
    · exact hsmall (by decide) (of_decide_eq_true hupper).2
    · exact hsmall (by decide) (of_decide_eq_true ((Bool.and_eq_true _ _).mp hlower).2)
  · exact hsmall (by decide) (of_decide_eq_true ((Bool.and_eq_true _ _).mp hdigit).2)

namespace Section

/-! ## Tokens of label bodies -/

/-- The characters with which a token goes on, by its mark. -/
def runsOn : Mark → Char → Bool
  | .word | .keyword _ => Text.isWord
  | .newline => (· == '\n')
  | .other => isOther
  | .space => isSpace
  | _ => fun _ => false

theorem runsOn_wordMark (s : String) : runsOn (wordMark s) = Text.isWord := by
  unfold wordMark
  cases Keyword.ofSpelling? s <;> rfl

theorem runsOn_literal {c : Char} {k : Mark} (h : Mark.ofChar? c = some k) :
    runsOn k = fun _ => false := by
  unfold Mark.ofChar? at h
  split at h <;> cases h <;> rfl

/-- A token starts with a character of its mark and takes all that go on with it. -/
theorem match?_cases {c : Char} {cs : List Char} {m : Lexer.Match Mark}
    (h : lexer.match? (c :: cs) = some m) :
    ∃ k, m.kind? = some k ∧ m.text = c :: cs.takeWhile (runsOn k) ∧
      (runsOn k c = true ∨ Mark.ofChar? c = some k) := by
  rw [Lexer.match?_cons] at h
  simp only [lexer, List.findSome?_cons, List.findSome?_nil, Rule.match?_run] at h
  by_cases hword : Text.isWord c = true
  · rw [if_pos hword] at h
    cases h
    refine ⟨_, rfl, ?_, .inl ?_⟩
    · rw [runsOn_wordMark]
    · rw [runsOn_wordMark]
      exact hword
  rw [if_neg hword] at h
  by_cases hline : (c == '\n') = true
  · rw [if_pos hline] at h
    cases h
    exact ⟨_, rfl, rfl, .inl hline⟩
  rw [if_neg hline] at h
  by_cases hother : isOther c = true
  · rw [if_pos hother] at h
    cases h
    exact ⟨_, rfl, rfl, .inl hother⟩
  rw [if_neg hother] at h
  by_cases hspace : isSpace c = true
  · rw [if_pos hspace] at h
    cases h
    exact ⟨_, rfl, rfl, .inl hspace⟩
  rw [if_neg hspace] at h
  obtain ⟨k, hk, rfl⟩ := Option.map_eq_some_iff.mp h
  refine ⟨k, rfl, ?_, .inr hk⟩
  rw [runsOn_literal hk, Parts.takeWhile_never]

theorem isBlank_of_isSpace {c : Char} (h : isSpace c = true) : Text.isBlank c = true :=
  Parts.isBlank_of_isSpace h

theorem isBlank_of_isWord {c : Char} (h : Text.isWord c = true) : Text.isBlank c = false := by
  by_contra hblank
  rw [Text.isWord_of_isBlank (by simpa using hblank)] at h
  cases h

theorem isBlank_of_isOther {c : Char} (h : isOther c = true) : Text.isBlank c = false := by
  simp only [isOther, Bool.not_eq_true', Bool.or_eq_false_iff] at h
  exact h.1.1

/-- The characters of one mark are all blank, or none is. -/
theorem isBlank_of_runsOn {k : Mark} {a b : Char} (ha : runsOn k a = true)
    (hb : runsOn k b = true) : Text.isBlank a = Text.isBlank b := by
  cases k with
  | word | keyword j => rw [isBlank_of_isWord ha, isBlank_of_isWord hb]
  | newline =>
    obtain rfl : a = '\n' := by simpa [runsOn] using ha
    obtain rfl : b = '\n' := by simpa [runsOn] using hb
    rfl
  | other => rw [isBlank_of_isOther ha, isBlank_of_isOther hb]
  | space => rw [isBlank_of_isSpace ha, isBlank_of_isSpace hb]
  | _ => cases ha

/-- One text ends in a blank and the other starts with none, or the other way round. -/
def Breaks (u v : List Char) : Prop :=
  ∀ a ∈ u.getLast?, ∀ b ∈ v.head?, Text.isBlank a ≠ Text.isBlank b

theorem Breaks.suffix {u u' v : List Char} (h : Breaks u v) (hu : u' <:+ u) : Breaks u' v := by
  obtain ⟨t, rfl⟩ := hu
  intro a ha
  refine h a ?_
  rw [List.getLast?_append]
  simp [Option.mem_def.mp ha]

theorem takeWhile_of_breaks {c : Char} {cs v : List Char} (h : Breaks (c :: cs) v) {k : Mark}
    (hc : runsOn k c = true) : (cs ++ v).takeWhile (runsOn k) = cs.takeWhile (runsOn k) := by
  rw [List.takeWhile_append]
  split
  · next hlength =>
    have hall := (List.takeWhile_prefix (l := cs) (runsOn k)).eq_of_length hlength
    have hrun : ∀ d ∈ c :: cs, runsOn k d = true := by
      refine List.forall_mem_cons.mpr ⟨hc, fun d hd => ?_⟩
      rw [← hall] at hd
      exact List.mem_takeWhile_imp hd
    have hlast := hrun _ ((c :: cs).getLast_mem (by simp))
    cases v with
    | nil => simp [hall]
    | cons b v =>
      have hb : runsOn k b = false := by
        by_contra hb
        exact h _ (List.getLast?_eq_some_getLast _) b rfl
          (isBlank_of_runsOn hlast (by simpa using hb))
      rw [List.takeWhile_cons_of_neg (by simp [hb]), List.append_nil, hall]
  · rfl

theorem match?_of_breaks {c : Char} {cs v : List Char} (h : Breaks (c :: cs) v) :
    lexer.match? (c :: (cs ++ v)) = lexer.match? (c :: cs) := by
  have hword := @takeWhile_of_breaks c cs v h .word
  have hline := @takeWhile_of_breaks c cs v h .newline
  have hother := @takeWhile_of_breaks c cs v h .other
  have hspace := @takeWhile_of_breaks c cs v h .space
  simp only [runsOn] at hword hline hother hspace
  rw [Lexer.match?_cons, Lexer.match?_cons]
  simp only [lexer, List.findSome?_cons, List.findSome?_nil, Rule.match?_run]
  by_cases hc : Text.isWord c = true
  · rw [if_pos hc, if_pos hc, hword hc]
  rw [if_neg hc, if_neg hc]
  by_cases hc : (c == '\n') = true
  · rw [if_pos hc, if_pos hc, hline hc]
  rw [if_neg hc, if_neg hc]
  by_cases hc : isOther c = true
  · rw [if_pos hc, if_pos hc, hother hc]
  rw [if_neg hc, if_neg hc]
  by_cases hc : isSpace c = true
  · rw [if_pos hc, if_pos hc, hspace hc]
  rw [if_neg hc, if_neg hc]

/-- Texts are cut one after the other where blanks begin or end. -/
theorem cuts_append {u v : List Char} {ts us : List Piece} {left : Option (List Char)}
    (hu : lexer.Cuts u ts none) (hv : lexer.Cuts v us left) (h : Breaks u v) :
    lexer.Cuts (u ++ v) (ts ++ us) left := by
  generalize hnone : none = none' at hu
  induction hu with
  | nil => exact hv
  | stuck => cases hnone
  | skip hs => cases hs
  | drop _ hm hk =>
    obtain ⟨k, hkind, -⟩ := match?_cases hm
    cases hk.symm.trans hkind
  | @keep c cs m k ts _ hs hm hk _ ih =>
    have hrest := ih (h.suffix (List.drop_suffix ..)) hnone
    rw [← Lexer.drop_append hm] at hrest
    exact .keep hs ((match?_of_breaks h).trans hm) hk hrest

/-- The character is no blank, or one that may stand in a label body. -/
def IsKnown (c : Char) : Prop := Text.isBlank c = true → isSpace c = true ∨ c = '\n'

theorem isKnown_of_runsOn {k : Mark} {c : Char} (h : runsOn k c = true) : IsKnown c := by
  intro hblank
  cases k with
  | word | keyword j =>
    rw [isBlank_of_isWord h] at hblank
    cases hblank
  | newline => exact .inr (by simpa [runsOn] using h)
  | space => exact .inl h
  | other =>
    rw [isBlank_of_isOther h] at hblank
    cases hblank
  | _ => cases h

theorem isKnown_of_literal {c : Char} {k : Mark} (h : Mark.ofChar? c = some k) : IsKnown c := by
  unfold Mark.ofChar? at h
  split at h <;> first | (intro hblank; cases hblank) | cases h

theorem match?_ne_none {c : Char} (h : IsKnown c) (cs : List Char) :
    lexer.match? (c :: cs) ≠ none := by
  rw [Lexer.match?_cons]
  simp only [lexer, List.findSome?_cons, List.findSome?_nil, Rule.match?_run]
  by_cases hword : Text.isWord c = true
  · simp [hword]
  by_cases hline : (c == '\n') = true
  · simp [hword, hline]
  by_cases hother : isOther c = true
  · simp [hword, hline, hother]
  by_cases hspace : isSpace c = true
  · simp [hword, hline, hother, hspace]
  have hblank : Text.isBlank c = false := by
    by_contra hblank
    rcases h (by simpa using hblank) with h | h
    · exact hspace h
    · exact hline (by simpa using h)
  have hliteral : Mark.ofChar? c ≠ none := by
    simpa [isOther, hblank, hword] using hother
  obtain ⟨k, hk⟩ := Option.ne_none_iff_exists'.mp hliteral
  simp [hk]

/-- A text can be cut just if it has no other blanks than those of label bodies. -/
theorem exists_cuts_iff {cs : List Char} :
    (∃ ts, lexer.Cuts cs ts none) ↔ ∀ c ∈ cs, IsKnown c := by
  constructor
  · rintro ⟨ts, h⟩
    generalize hnone : none = none' at h
    induction h with
    | nil => simp
    | stuck => cases hnone
    | skip hs => cases hs
    | drop _ hm hk =>
      obtain ⟨k, hkind, -⟩ := match?_cases hm
      cases hk.symm.trans hkind
    | @keep c cs m k ts _ hs hm hk _ ih =>
      obtain ⟨k, -, htext, hc⟩ := match?_cases hm
      have hrest := ih hnone
      rw [htext, Parts.drop_takeWhile] at hrest
      refine List.forall_mem_cons.mpr ⟨hc.elim isKnown_of_runsOn isKnown_of_literal, ?_⟩
      rw [← List.takeWhile_append_dropWhile (p := runsOn k) (l := cs)]
      exact List.forall_mem_append.mpr
        ⟨fun d hd => isKnown_of_runsOn (List.mem_takeWhile_imp hd), hrest⟩
  · intro h
    have hcuts := lexer.cuts_scan 1 cs
    generalize (lexer.scan 1 cs).tokens.map Token.bare = ts at hcuts
    generalize (lexer.scan 1 cs).tail.rest? = left at hcuts
    cases left with
    | none => exact ⟨ts, hcuts⟩
    | some rest =>
      exfalso
      generalize hrest : some rest = left at hcuts
      induction hcuts with
      | nil => cases hrest
      | stuck _ hm => exact match?_ne_none (h _ (List.mem_cons_self ..)) _ hm
      | skip hs => cases hs
      | drop _ _ _ _ ih | keep _ _ _ _ ih =>
        exact ih (fun c hc => h c (List.mem_of_mem_drop hc)) hrest

/-- Every token starts with a character of the text. -/
theorem exists_mem_of_cuts {cs : List Char} {ts : List Piece} {left : Option (List Char)}
    (h : lexer.Cuts cs ts left) :
    ∀ t ∈ ts, ∃ c ∈ cs, runsOn t.1 c = true ∨ Mark.ofChar? c = some t.1 := by
  induction h with
  | nil | stuck => simp
  | skip hs => cases hs
  | drop _ hm hk =>
    obtain ⟨k, hkind, -⟩ := match?_cases hm
    cases hk.symm.trans hkind
  | keep _ hm hk _ ih =>
    obtain ⟨k', hkind, -, hc⟩ := match?_cases hm
    cases hk.symm.trans hkind
    refine List.forall_mem_cons.mpr ⟨⟨_, List.mem_cons_self .., hc⟩, fun t ht => ?_⟩
    obtain ⟨c, hc, hmark⟩ := ih t ht
    exact ⟨c, List.mem_of_mem_drop hc, hmark⟩

theorem match?_word {c : Char} (h : Text.isWord c = true) (cs : List Char) :
    lexer.match? (c :: cs) =
      some ⟨some (wordMark (String.ofList (c :: cs.takeWhile Text.isWord))),
        c :: cs.takeWhile Text.isWord, 0⟩ := by
  rw [Lexer.match?_cons]
  simp only [lexer, List.findSome?_cons, Rule.match?_run, if_pos h]
  rfl

theorem match?_blank (cs : List Char) :
    lexer.match? (' ' :: cs) = some ⟨some .space, ' ' :: cs.takeWhile isSpace, 0⟩ := by
  have hword : ¬ Text.isWord ' ' = true := by decide
  have hother : ¬ isOther ' ' = true := by decide
  rw [Lexer.match?_cons]
  simp only [lexer, List.findSome?_cons, Rule.match?_run, if_neg hword, if_neg hother]
  rfl

/-- Words with blanks between them are cut into these words and the blanks. -/
theorem cuts_words {r : List Char} (hr : ∀ c ∈ r, Text.isWord c = true ∨ c = ' ') :
    ∃ us, lexer.Cuts r us none ∧
      (∀ t ∈ us, t.1 = .space ∨ ∃ s ∈ Text.wordsFrom [] r, t.1 = wordMark s) ∧
      ∀ s ∈ Text.wordsFrom [] r, ∃ t ∈ us, t.1 = wordMark s := by
  -- a word is one token, so the induction is on the length
  induction hn : r.length using Nat.strongRecOn generalizing r with
  | ind n ih =>
    cases r with
    | nil => exact ⟨[], .nil, by simp, by simp [Text.wordsFrom]⟩
    | cons c cs =>
      rw [List.length_cons] at hn
      obtain ⟨hc, hcs⟩ := List.forall_mem_cons.mp hr
      have hrest (p : Char → Bool) : ∃ us, lexer.Cuts (cs.dropWhile p) us none ∧
          (∀ t ∈ us, t.1 = .space ∨ ∃ s ∈ Text.wordsFrom [] (cs.dropWhile p), t.1 = wordMark s) ∧
          ∀ s ∈ Text.wordsFrom [] (cs.dropWhile p), ∃ t ∈ us, t.1 = wordMark s := by
        have hsuffix : cs.dropWhile p <:+ cs := List.dropWhile_suffix _
        have hlength := hsuffix.length_le
        exact ih _ (by omega) (fun d hd => hcs d (hsuffix.mem hd)) rfl
      rcases hc with hword | rfl
      · obtain ⟨us, hcuts, hsound, hcomplete⟩ := hrest Text.isWord
        have hwords : Text.wordsFrom [] (c :: cs) =
            String.ofList (c :: cs.takeWhile Text.isWord) ::
              Text.wordsFrom [] (cs.dropWhile Text.isWord) := by
          have hblank : ∀ d ∈ (cs.dropWhile Text.isWord).head?, Text.isBlank d = true := by
            intro d hd
            have hnot := List.head?_dropWhile_not Text.isWord cs
            rw [Option.mem_def.mp hd] at hnot
            have hmem := (List.dropWhile_suffix _).mem (List.mem_of_mem_head? hd)
            rcases hcs d hmem with hd | rfl
            · cases (show Text.isWord d = false from hnot).symm.trans hd
            · rfl
          have hsplit := Text.wordsFrom_word (w := c :: cs.takeWhile Text.isWord) (by simp)
            (List.forall_mem_cons.mpr ⟨isBlank_of_isWord hword,
              fun d hd => isBlank_of_isWord (List.mem_takeWhile_imp hd)⟩) hblank
          rwa [List.cons_append, List.takeWhile_append_dropWhile] at hsplit
        rw [← Parts.drop_takeWhile Text.isWord c cs] at hcuts
        refine ⟨_, .keep rfl (match?_word hword cs) rfl hcuts, ?_, ?_⟩
        · rw [hwords]
          refine List.forall_mem_cons.mpr ⟨.inr ⟨_, List.mem_cons_self .., rfl⟩, fun t ht => ?_⟩
          refine (hsound t ht).imp_right ?_
          rintro ⟨s, hs, h⟩
          exact ⟨s, List.mem_cons_of_mem _ hs, h⟩
        · rw [hwords]
          refine List.forall_mem_cons.mpr ⟨⟨_, List.mem_cons_self .., rfl⟩, fun s hs => ?_⟩
          obtain ⟨t, ht, h⟩ := hcomplete s hs
          exact ⟨t, List.mem_cons_of_mem _ ht, h⟩
      · obtain ⟨us, hcuts, hsound, hcomplete⟩ := hrest isSpace
        have hwords : Text.wordsFrom [] (' ' :: cs) = Text.wordsFrom [] (cs.dropWhile isSpace) := by
          have hskip := Text.wordsFrom_skip (b := cs.takeWhile isSpace)
            (fun d hd => isBlank_of_isSpace (List.mem_takeWhile_imp hd)) (cs.dropWhile isSpace)
          rwa [List.takeWhile_append_dropWhile] at hskip
        rw [← Parts.drop_takeWhile isSpace ' ' cs] at hcuts
        refine ⟨_, .keep rfl (match?_blank cs) rfl hcuts, ?_, ?_⟩
        · rw [hwords]
          exact List.forall_mem_cons.mpr ⟨.inl rfl, hsound⟩
        · rw [hwords]
          intro s hs
          obtain ⟨t, ht, h⟩ := hcomplete s hs
          exact ⟨t, List.mem_cons_of_mem _ ht, h⟩

/-! ## Keywords behind a body -/

/-- The marks of words, blanks and what is neither. -/
def isQuiet : Mark → Bool
  | .word | .keyword _ | .newline | .space | .other => true
  | _ => false

/-- A heading has begun, and a colon or a parenthesis has to come before the text may end. -/
def Stranded : Position → Prop
  | .afterWord _ | .close _ | .event | .temporal _ => True
  | _ => False

theorem Stranded.next {s s' : State} {t : Piece} (h : Stranded s.position) (ht : isQuiet t.1 = true)
    (hnext : next s t = some s') : Stranded s'.position := by
  obtain ⟨ss, p⟩ := s
  obtain ⟨k, text⟩ := t
  cases p with
  | afterWord ws =>
    cases k with
    | newline | space => cases hnext; trivial
    | word | keyword j | other => cases hnext
    | _ => cases ht
  | close heading =>
    cases k with
    | newline | space => cases hnext; trivial
    | word | keyword j | other => cases hnext
    | _ => cases ht
  | event =>
    cases k with
    | newline | space | word => cases hnext; trivial
    | keyword j =>
      cases j with
      | temporal w => cases hnext; trivial
      | _ => cases hnext
    | other => cases hnext
    | _ => cases ht
  | temporal w =>
    cases k with
    | newline | space | word | keyword j | other => cases hnext
    | _ => cases ht
  | _ => cases h

theorem Stranded.run {us : List Piece} (hus : ∀ t ∈ us, isQuiet t.1 = true) {s s' : State}
    (h : Stranded s.position) (hrun : us.foldlM Section.next s = some s') :
    Stranded s'.position := by
  induction us generalizing s with
  | nil =>
    cases hrun
    exact h
  | cons t us ih =>
    obtain ⟨ht, hus⟩ := List.forall_mem_cons.mp hus
    obtain ⟨u, hu, hrun⟩ := Option.bind_eq_some_iff.mp hrun
    exact ih hus (h.next ht hu) hrun

/-- A keyword behind a body begins a heading. -/
theorem stranded_of_keyword {us : List Piece} (hus : ∀ t ∈ us, isQuiet t.1 = true)
    (hkey : ∃ t ∈ us, ∃ k, t.1 = .keyword k) {ss : List Section} {h : Heading} {b : String}
    {s : State} (hrun : us.foldlM next ⟨ss, .body h b⟩ = some s) : Stranded s.position := by
  induction us generalizing b with
  | nil => simp at hkey
  | cons t us ih =>
    obtain ⟨k, text⟩ := t
    obtain ⟨-, hquiet⟩ := List.forall_mem_cons.mp hus
    obtain ⟨u, hu, hrun⟩ := Option.bind_eq_some_iff.mp hrun
    by_cases hk : ∃ j, k = .keyword j
    · obtain ⟨j, rfl⟩ := hk
      obtain ⟨p, hp, rfl⟩ := Option.map_eq_some_iff.mp hu
      refine Stranded.run hquiet ?_ hrun
      cases j with
      | action w | bind | on => cases hp; trivial
      | temporal w => cases hp
    · rw [next_body (fun j hj => hk ⟨j, hj⟩)] at hu
      cases hu
      refine ih hquiet ?_ hrun
      obtain ⟨t, ht, j, hj⟩ := hkey
      rcases List.mem_cons.mp ht with rfl | ht
      · exact absurd ⟨j, hj⟩ hk
      · exact ⟨t, ht, j, hj⟩

theorem Stranded.finish {s : State} (h : Stranded s.position) (ss : List Section) :
    finish s ≠ .ok ss := by
  obtain ⟨done, p⟩ := s
  intro hfinish
  cases p with
  | afterWord ws | close heading | event | temporal w => cases hfinish
  | _ => cases h

/-! ## Bodies with a comment behind them -/

theorem mem_comment {w : String} (hw : Wordy w) :
    ∀ c ∈ (' ' :: w.toList).rdropWhile Text.isBlank, Text.isWord c = true ∨ c = ' ' := by
  intro c hc
  rcases List.mem_cons.mp ((List.rdropWhile_prefix _ _).mem hc) with rfl | hc
  · exact .inr rfl
  · exact (hw c hc).imp_left isWord_of_isAlphanum

theorem wordMark_eq_keyword {s : String} :
    (∃ k, wordMark s = .keyword k) ↔ Keyword.ofSpelling? s ≠ none := by
  unfold wordMark
  cases Keyword.ofSpelling? s with
  | none => simp
  | some k => simp

theorem isQuiet_wordMark (s : String) : isQuiet (wordMark s) = true := by
  unfold wordMark
  cases Keyword.ofSpelling? s <;> rfl

theorem words_comment (w : String) :
    Text.wordsFrom [] ((' ' :: w.toList).rdropWhile Text.isBlank) = Text.words w := by
  have hall := Text.wordsFrom_append_blanks
    (fun c => List.mem_rtakeWhile_imp (p := Text.isBlank) (l := ' ' :: w.toList)) []
    ((' ' :: w.toList).rdropWhile Text.isBlank)
  rw [List.rdropWhile_append_rtakeWhile] at hall
  exact hall.symm

/-- The tokens of blanks and a comment are quiet, with a keyword just if a word of the comment is
one. -/
theorem cuts_comment {e : List Char} (he : Action.IsGap e) {w : String} (hw : Wordy w) :
    ∃ us, lexer.Cuts (e ++ (comment w).toList) us none ∧ (∀ t ∈ us, isQuiet t.1 = true) ∧
      ((∃ t ∈ us, ∃ k, t.1 = .keyword k) ↔ ∃ s ∈ Text.words w, Keyword.ofSpelling? s ≠ none) := by
  have hmarks : ∀ c ∈ e ++ [' ', '/', '/'],
      Text.isWord c = false ∧ Mark.ofChar? c = none ∧ IsKnown c := by
    refine List.forall_mem_append.mpr ⟨fun c hc => ?_, by simp [IsKnown]; decide⟩
    rcases he c hc with hspace | rfl
    · refine ⟨Text.isWord_of_isBlank (isBlank_of_isSpace hspace), ?_, fun _ => .inl hspace⟩
      simp only [Symbol.isSpace, Bool.or_eq_true, beq_iff_eq] at hspace
      rcases hspace with (((rfl | rfl) | rfl) | rfl) | rfl <;> rfl
    · exact ⟨by decide, rfl, fun _ => .inr rfl⟩
  obtain ⟨ts, hts⟩ := exists_cuts_iff.mpr fun c hc => (hmarks c hc).2.2
  obtain ⟨us, hus, hsound, hcomplete⟩ := cuts_words (mem_comment hw)
  rw [words_comment] at hsound hcomplete
  have hbreaks : Breaks (e ++ [' ', '/', '/']) ((' ' :: w.toList).rdropWhile Text.isBlank) := by
    intro a ha b hb
    obtain rfl : '/' = a := by simpa using ha
    obtain ⟨rest, hprefix⟩ := List.rdropWhile_prefix Text.isBlank (' ' :: w.toList)
    obtain ⟨tail, htail⟩ := List.head?_eq_some_iff.mp hb
    rw [htail, List.cons_append] at hprefix
    obtain ⟨rfl, -⟩ := List.cons_eq_cons.mp hprefix
    decide
  have hquiet : ∀ t ∈ ts, isQuiet t.1 = true ∧ ∀ k, t.1 ≠ .keyword k := by
    intro t ht
    obtain ⟨c, hc, hmark⟩ := exists_mem_of_cuts hts t ht
    obtain ⟨hword, hliteral, -⟩ := hmarks c hc
    rw [hliteral] at hmark
    have hruns := hmark.resolve_right (by simp)
    generalize t.1 = k at hruns
    cases k with
    | word | keyword j => cases hword.symm.trans hruns
    | newline | space | other => exact ⟨rfl, by simp⟩
    | _ => cases hruns
  refine ⟨ts ++ us, ?_, ?_, ?_⟩
  · rw [toList_comment, ← List.append_assoc]
    exact cuts_append hts hus hbreaks
  · refine List.forall_mem_append.mpr ⟨fun t ht => (hquiet t ht).1, fun t ht => ?_⟩
    rcases hsound t ht with hspace | ⟨s, -, hs⟩
    · rw [hspace]
      rfl
    · rw [hs]
      exact isQuiet_wordMark s
  · constructor
    · rintro ⟨t, ht, k, hk⟩
      rcases List.mem_append.mp ht with ht | ht
      · exact absurd hk ((hquiet t ht).2 k)
      · rcases hsound t ht with hspace | ⟨s, hs, hmark⟩
        · cases hspace.symm.trans hk
        · exact ⟨s, hs, wordMark_eq_keyword.mp ⟨k, hmark.symm.trans hk⟩⟩
    · rintro ⟨s, hs, hkey⟩
      obtain ⟨t, ht, hmark⟩ := hcomplete s hs
      obtain ⟨k, hk⟩ := wordMark_eq_keyword.mpr hkey
      exact ⟨t, List.mem_append_right _ ht, k, hmark.trans hk⟩

theorem isBlank_head_comment {e : List Char} (he : ∀ c ∈ e, Text.isBlank c = true) (w : String) :
    ∃ b rest, e ++ (comment w).toList = b :: rest ∧ Text.isBlank b = true := by
  cases e with
  | nil =>
    rw [toList_comment]
    exact ⟨' ', _, rfl, rfl⟩
  | cons b e => exact ⟨b, _, rfl, he b (List.mem_cons_self ..)⟩

/-- The position behind a text that ends in a section is within its body. -/
theorem position_of_finish {ts : List Piece} {s : State} {ss : List Section} {last : Section}
    (hrun : ts.foldlM next reader.start = some s) (hfinish : finish s = .ok (ss ++ [last])) :
    s = ⟨ss, .body last.heading last.body⟩ := by
  have hstands : Stands s ([] ++ ts) := Stands.run (.outset (by simp [Gap])) hrun
  cases hstands with
  | outset => simp [finish] at hfinish
  | @heading ss' p done core heading hdone hopen hspaced =>
    cases p with
    | outset | body heading text => cases hopen
    | _ => cases hfinish
  | start => cases hfinish
  | body =>
    obtain ⟨rfl, hlast⟩ := List.append_inj' (Except.ok.inj hfinish) rfl
    cases hlast
    rfl

/-- Text without keywords is added to a body as it is. -/
theorem foldlM_cuts {us : List Piece} (hplain : ¬ ∃ t ∈ us, ∃ k, t.1 = .keyword k) {more : String}
    (hus : lexer.Cuts more.toList us none) (ss : List Section) (h : Heading) (b : String) :
    us.foldlM next ⟨ss, .body h b⟩ = some ⟨ss, .body h (b ++ more)⟩ := by
  have htext : String.join (us.map (·.2)) = more := by
    rw [← String.toList_inj, String.toList_join, List.flatMap_map]
    simpa using hus.flatMap_text lossless
  rw [foldlM_plain (fun t ht k hk => hplain ⟨t, ht, k, hk⟩), htext]

/-- A comment behind a label body goes to the last section, unless a word of it is a keyword. -/
theorem read_commented {text : String} (hlast : ∀ c ∈ text.toList.getLast?, Text.isBlank c = false)
    {e : String} (he : ∀ c ∈ e.toList, Text.isBlank c = true) {w : String} (hw : Wordy w)
    {ss : List Section} {last : Section} {line : Nat} (h : (read line text).1 = .ok (ss ++ [last]))
    {line' : Nat} {ss' : List Section} :
    (read line' (text ++ (e ++ comment w))).1 = .ok ss' ↔
      Action.IsGap e.toList ∧ (∀ s ∈ Text.words w, Keyword.ofSpelling? s = none) ∧
        ss' = ss ++ [⟨last.heading, last.body ++ (e ++ comment w)⟩] := by
  rw [read, Reader.run_eq_ok advances] at h ⊢
  obtain ⟨ts, s, hts, hrun, hfinish⟩ := h
  obtain rfl := position_of_finish hrun hfinish
  rw [String.toList_append, String.toList_append]
  have hbreaks : Breaks text.toList (e.toList ++ (comment w).toList) := by
    obtain ⟨b, rest, hb, hblank⟩ := isBlank_head_comment he w
    intro a ha c hc
    rw [hb] at hc
    cases hc
    rw [hlast a ha, hblank]
    decide
  have hcuts {us : List Piece} (hus : lexer.Cuts (e.toList ++ (comment w).toList) us none) :=
    cuts_append hts hus hbreaks
  constructor
  · rintro ⟨all, s, hall, hrun', hfinish'⟩
    have hgap : Action.IsGap e.toList := fun c hc =>
      exists_cuts_iff.mp ⟨all, hall⟩ c (by simp [hc]) (he c hc)
    obtain ⟨us, hus, hquiet, hkeyword⟩ := cuts_comment hgap hw
    obtain ⟨rfl, -⟩ := hall.unique (hcuts hus)
    rw [List.foldlM_append, hrun] at hrun'
    have hnone : ¬ ∃ t ∈ us, ∃ k, t.1 = .keyword k := fun hkey =>
      (stranded_of_keyword hquiet hkey hrun').finish ss' hfinish'
    rw [← String.toList_append] at hus
    cases (foldlM_cuts hnone hus ss last.heading last.body).symm.trans hrun'
    refine ⟨hgap, ?_, (Except.ok.inj hfinish').symm⟩
    simpa using fun hkey => hnone (hkeyword.mpr hkey)
  · rintro ⟨hgap, hwords, rfl⟩
    obtain ⟨us, hus, -, hkeyword⟩ := cuts_comment hgap hw
    have hnone : ¬ ∃ t ∈ us, ∃ k, t.1 = .keyword k := by
      rintro hkey
      obtain ⟨s, hs, hs'⟩ := hkeyword.mp hkey
      exact hs' (hwords s hs)
    refine ⟨ts ++ us, ⟨ss, .body last.heading (last.body ++ (e ++ comment w))⟩, hcuts hus, ?_, rfl⟩
    rw [← String.toList_append] at hus
    rw [List.foldlM_append, hrun]
    exact foldlM_cuts hnone hus ss last.heading last.body

end Section

/-! ## Transition labels with a comment behind them -/

namespace Parts

theorem Lexed.accepted {cs : List Char} {ts : List Piece} (h : Lexed cs ts) :
    ∀ c ∈ cs, markOf? c ≠ none := by
  induction h with
  | nil => simp
  | cons hk hrun _ _ ih =>
    refine List.forall_mem_cons.mpr ⟨by simp [hk], List.forall_mem_append.mpr ⟨fun d hd => ?_, ih⟩⟩
    simp [markOf?_of_runsOn (hrun d hd)]

/-- The blanks that may stand in a transition label. -/
theorem isSpace_of_markOf? {c : Char} (hblank : Text.isBlank c = true) (h : markOf? c ≠ none) :
    isSpace c = true ∨ c = '\n' := by
  by_contra hnot
  obtain ⟨hspace, hline⟩ := not_or.mp hnot
  have hleft : c ≠ '[' := by
    rintro rfl
    cases hblank
  have hright : c ≠ ']' := by
    rintro rfl
    cases hblank
  refine h ?_
  simp only [markOf?, beq_iff_eq, if_neg hline, isOther, hblank, Bool.true_or, Bool.not_true,
    Bool.false_eq_true, if_false, if_neg hspace, Text.isWord_of_isBlank hblank, if_neg hleft,
    if_neg hright, lexer]
  split <;> first | rfl | cases hblank

/-- Marks that open and close nothing. -/
def isPlain : Mark → Bool
  | .opening _ | .closing _ => false
  | _ => true

theorem pairsAfter_plain {x : List Char} (hx : ∀ c ∈ x, (markOf? c).any isPlain = true)
    (ps : List Pair) : pairsAfter ps x = some ps := by
  induction x with
  | nil => rfl
  | cons c x ih =>
    obtain ⟨hc, hx⟩ := List.forall_mem_cons.mp hx
    obtain ⟨k, hk, hplain⟩ := (Option.any_eq_true _ _).mp hc
    have hturn : turn ps k = some ps := by
      cases k with
      | opening p | closing p => cases hplain
      | _ => rfl
    rw [pairsAfter_cons hk, hturn]
    exact ih hx

theorem markOf?_comment {e : List Char} (he : Action.IsGap e) {w : String} (hw : Wordy w) :
    ∀ c ∈ e ++ (comment w).toList, (markOf? c).any isPlain = true := by
  have hspace {c : Char} (hc : isSpace c = true) : (markOf? c).any isPlain = true := by
    rw [markOf?_of_runsOn (k := .space) hc]
    rfl
  have hslashes : [' ', '/', '/'].all (fun c => (markOf? c).any isPlain) = true := by decide
  rw [toList_comment]
  refine List.forall_mem_append.mpr ⟨fun c hc => ?_, List.forall_mem_append.mpr
    ⟨List.all_eq_true.mp hslashes, ?_⟩⟩
  · rcases he c hc with hc | rfl
    · exact hspace hc
    · rfl
  · intro c hc
    rcases Section.mem_comment hw c hc with hc | rfl
    · rw [markOf?_of_runsOn (k := .word) hc]
      rfl
    · rfl

/-- A comment behind a transition action goes to it. -/
theorem read_commented {text e : String} (he : ∀ c ∈ e.toList, Text.isBlank c = true) {w : String}
    (hw : Wordy w) {p : Parts} {x : String} (hx : p.transitionAction = some x) {line : Nat}
    (h : (read line text).1 = .ok p) {line' : Nat} {p' : Parts} :
    (read line' (text ++ (e ++ comment w))).1 = .ok p' ↔
      Action.IsGap e.toList ∧ p' = { p with transitionAction := some (x ++ (e ++ comment w)) } := by
  have hread (hgap : Action.IsGap e.toList) : (read line' (text ++ (e ++ comment w))).1 =
      .ok { p with transitionAction := some (x ++ (e ++ comment w)) } := by
    obtain ⟨lead, ev, c, ca, ta, hlead, hev, hc, hca, hta, htext⟩ := read_eq_ok.mp h
    rw [hx] at hta
    obtain ⟨hnested, rfl⟩ := hta
    refine read_eq_ok.mpr ⟨lead, ev, c, ca, _, hlead, hev, hc, hca, ⟨?_, rfl⟩, ?_⟩
    · rw [String.toList_append, String.toList_append, isNested_iff, pairsAfter_append,
        isNested_iff.mp hnested]
      exact pairsAfter_plain (markOf?_comment hgap hw) []
    · simp [htext]
  constructor
  · intro h'
    have hgap : Action.IsGap e.toList := by
      rw [read, Reader.run_eq_ok advances] at h'
      obtain ⟨ts, -, hcuts, -⟩ := h'
      intro c hc
      exact isSpace_of_markOf? (he c hc) ((lexed_of_cuts hcuts).accepted c (by simp [hc]))
    exact ⟨hgap, Except.ok.inj (h'.symm.trans (hread hgap))⟩
  · rintro ⟨hgap, rfl⟩
    exact hread hgap

end Parts

end Statechart.Label
