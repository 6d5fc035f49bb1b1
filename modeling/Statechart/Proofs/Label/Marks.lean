import Mathlib.Data.List.TakeWhile
import Mathlib.Tactic.SplitIfs
import Statechart.Proofs.Text.Places
import Statechart.Proofs.Token.Cuts

/-!
The tokens of a transition label by their characters. Every character has one mark (`markOf?`), and
a token is a run of characters of its mark that is as long as can be, or a single delimiter
(`Lexed`). So two texts are cut as one if no token goes on from the end of the first into the second
(`Lexed.append`).
-/

namespace Statechart.Label.Parts

/-! ## Characters -/

/-- The mark of the tokens that a character starts. -/
def markOf? (c : Char) : Option Mark :=
  if c == '\n' then some .newline
  else if isOther c then some .other
  else if isSpace c then some .space
  else if Text.isWord c then some .word
  else if c == '[' then some (.opening .bracket)
  else if c == ']' then some (.closing .bracket)
  else lexer.literal? c

/-- The characters with which a token goes on. -/
def runsOn : Mark → Char → Bool
  | .newline => (· == '\n')
  | .other => isOther
  | .space => isSpace
  | .word => Text.isWord
  | _ => fun _ => false

theorem runsOn_literal {c : Char} {k : Mark} (h : lexer.literal? c = some k) :
    runsOn k = fun _ => false := by
  simp only [lexer] at h
  split at h <;> cases h <;> rfl

theorem takeWhile_never (cs : List Char) : cs.takeWhile (fun _ => false) = [] := by
  cases cs <;> rfl

/-- A token starts with a character of its mark and takes all that go on with it. -/
theorem match?_cons (c : Char) (cs : List Char) :
    ∃ n, lexer.match? (c :: cs) =
      (markOf? c).map fun k => ⟨some k, c :: cs.takeWhile (runsOn k), n⟩ := by
  rw [Lexer.match?_cons, markOf?]
  simp only [lexer, List.findSome?, Rule.match?_run, Rule.match?_spelled]
  by_cases hnewline : c == '\n'
  · rw [if_pos hnewline, if_pos hnewline]
    exact ⟨_, rfl⟩
  rw [if_neg hnewline, if_neg hnewline]
  by_cases hother : isOther c
  · rw [if_pos hother, if_pos hother]
    exact ⟨_, rfl⟩
  rw [if_neg hother, if_neg hother]
  by_cases hspace : isSpace c
  · rw [if_pos hspace, if_pos hspace]
    exact ⟨_, rfl⟩
  rw [if_neg hspace, if_neg hspace]
  by_cases hword : Text.isWord c
  · rw [if_pos hword, if_pos hword]
    exact ⟨_, rfl⟩
  rw [if_neg hword, if_neg hword]
  refine ⟨0, ?_⟩
  by_cases hleft : c == '['
  · rw [if_pos hleft, if_pos hleft]
    simp [runsOn, takeWhile_never]
  rw [if_neg hleft, if_neg hleft]
  by_cases hright : c == ']'
  · rw [if_pos hright, if_pos hright]
    simp [runsOn, takeWhile_never]
  rw [if_neg hright, if_neg hright]
  show (lexer.literal? c).map (fun k => (⟨some k, [c], 0⟩ : Lexer.Match Mark)) =
    (lexer.literal? c).map fun k => ⟨some k, c :: cs.takeWhile (runsOn k), 0⟩
  refine Option.map_congr fun k hk => ?_
  rw [runsOn_literal hk, takeWhile_never]

theorem isBlank_of_isSpace {c : Char} (h : isSpace c = true) : Text.isBlank c = true := by
  simp only [isSpace, Bool.or_eq_true, beq_iff_eq] at h
  rcases h with (((rfl | rfl) | rfl) | rfl) | rfl <;> decide

theorem markOf?_of_runsOn {k : Mark} {c : Char} (h : runsOn k c = true) : markOf? c = some k := by
  cases k with
  | newline =>
    obtain rfl : c = '\n' := by simpa [runsOn] using h
    rfl
  | other =>
    have hc : c ≠ '\n' := by
      rintro rfl
      cases h
    simp only [runsOn] at h
    simp [markOf?, h, hc]
  | space =>
    simp only [runsOn, isSpace, Bool.or_eq_true, beq_iff_eq] at h
    rcases h with (((rfl | rfl) | rfl) | rfl) | rfl <;> decide
  | word =>
    simp only [runsOn] at h
    have hblank : Text.isBlank c = false := by
      by_contra hblank
      rw [Text.isWord_of_isBlank (by simpa using hblank)] at h
      cases h
    have hc : c ≠ '\n' := by
      rintro rfl
      cases hblank
    have hspace : isSpace c = false := by
      by_contra hspace
      rw [isBlank_of_isSpace (by simpa using hspace)] at hblank
      cases hblank
    simp [markOf?, isOther, h, hc, hspace]
  | opening p => cases h
  | closing p => cases h
  | slash => cases h

/-! ## Cutting into tokens -/

/-- A token of a transition label without its place. -/
abbrev Piece := Mark × String

/-- The text is cut into these tokens: each is a run of characters of one mark that is as long as
can be. -/
inductive Lexed : List Char → List Piece → Prop
  | nil : Lexed [] []
  | cons {c : Char} {run rest : List Char} {k : Mark} {ts : List Piece} : markOf? c = some k →
      (∀ d ∈ run, runsOn k d = true) → (∀ d ∈ rest.head?, runsOn k d = false) → Lexed rest ts →
      Lexed (c :: (run ++ rest)) ((k, String.ofList (c :: run)) :: ts)

theorem takeWhile_run {p : Char → Bool} {run rest : List Char} (hrun : ∀ d ∈ run, p d = true)
    (hrest : ∀ d ∈ rest.head?, p d = false) : (run ++ rest).takeWhile p = run := by
  rw [List.takeWhile_append_of_pos hrun]
  cases rest with
  | nil => simp
  | cons d rest => simp [hrest d rfl]

theorem Lexed.cuts {cs : List Char} {ts : List Piece} (h : Lexed cs ts) :
    lexer.Cuts cs ts none := by
  induction h with
  | nil => exact .nil
  | @cons c run rest k ts hk hrun hrest _ ih =>
    obtain ⟨n, hmatch⟩ := match?_cons c (run ++ rest)
    rw [hk, Option.map_some, takeWhile_run hrun hrest] at hmatch
    exact .keep rfl hmatch rfl (by simpa using ih)

theorem lexed_cons {c : Char} {cs : List Char} {k : Mark} {ts : List Piece}
    (hk : markOf? c = some k) (h : Lexed (cs.dropWhile (runsOn k)) ts) :
    Lexed (c :: cs) ((k, String.ofList (c :: cs.takeWhile (runsOn k))) :: ts) := by
  have hrest : ∀ d ∈ (cs.dropWhile (runsOn k)).head?, runsOn k d = false := by
    intro d hd
    have hnot := List.head?_dropWhile_not (runsOn k) cs
    rwa [Option.mem_def.mp hd] at hnot
  have hrun : ∀ d ∈ cs.takeWhile (runsOn k), runsOn k d = true := fun d hd =>
    List.mem_takeWhile_imp hd
  have h := Lexed.cons hk hrun hrest h
  rwa [List.takeWhile_append_dropWhile] at h

theorem exists_lexed (cs : List Char) (h : ∀ c ∈ cs, markOf? c ≠ none) : ∃ ts, Lexed cs ts := by
  -- a token takes several characters at once, so the induction is on the length
  induction hn : cs.length using Nat.strongRecOn generalizing cs with
  | ind n ih =>
    cases cs with
    | nil => exact ⟨[], .nil⟩
    | cons c cs =>
      obtain ⟨k, hk⟩ := Option.ne_none_iff_exists'.mp (h c (List.mem_cons_self ..))
      have hsuffix : cs.dropWhile (runsOn k) <:+ cs := List.dropWhile_suffix _
      have hlength := hsuffix.length_le
      rw [List.length_cons] at hn
      obtain ⟨ts, hts⟩ := ih _ (by omega) (cs.dropWhile (runsOn k))
        (fun d hd => h d (List.mem_cons_of_mem _ (hsuffix.mem hd))) rfl
      exact ⟨_, lexed_cons hk hts⟩

theorem drop_takeWhile (p : Char → Bool) (c : Char) (cs : List Char) :
    (c :: cs).drop (c :: cs.takeWhile p).length = cs.dropWhile p := by
  rw [List.length_cons, List.drop_succ_cons]
  nth_rewrite 2 [← List.takeWhile_append_dropWhile (p := p) (l := cs)]
  exact List.drop_left

theorem lexed_of_cuts {cs : List Char} {ts : List Piece} (h : lexer.Cuts cs ts none) :
    Lexed cs ts := by
  generalize hrest : none = rest at h
  induction h with
  | nil => exact .nil
  | stuck _ _ => cases hrest
  | skip hs _ _ => cases hs
  | @drop c cs m ts rest _ hm hk _ _ =>
    obtain ⟨n, hmatch⟩ := match?_cons c cs
    rw [hmatch] at hm
    obtain ⟨k, -, rfl⟩ := Option.map_eq_some_iff.mp hm
    cases hk
  | @keep c cs m k ts rest _ hm hk hcuts ih =>
    obtain ⟨n, hmatch⟩ := match?_cons c cs
    rw [hmatch] at hm
    obtain ⟨k', hk', rfl⟩ := Option.map_eq_some_iff.mp hm
    cases hk
    rw [drop_takeWhile] at ih
    exact lexed_cons hk' (ih hrest)

/-- No token at the end of the first text goes on into the second. -/
def Apart (u v : List Char) : Prop :=
  ∀ a ∈ u.getLast?, ∀ b ∈ v.head?, ∀ k, markOf? a = some k → runsOn k b = false

theorem Apart.suffix {u u' v : List Char} (h : Apart u v) (hu : u' <:+ u) : Apart u' v := by
  obtain ⟨t, rfl⟩ := hu
  intro a ha
  refine h a ?_
  rw [List.getLast?_append]
  simp [Option.mem_def.mp ha]

theorem Lexed.append {u v : List Char} {ts us : List Piece} (hu : Lexed u ts) (hv : Lexed v us)
    (h : Apart u v) : Lexed (u ++ v) (ts ++ us) := by
  induction hu with
  | nil => exact hv
  | @cons c run rest k ts hk hrun hrest _ ih =>
    have happart : Apart rest v := h.suffix ((List.suffix_append _ _).trans (List.suffix_cons _ _))
    rw [List.cons_append, List.append_assoc]
    refine .cons hk hrun ?_ (ih happart)
    cases rest with
    | cons d rest => exact hrest
    | nil =>
      intro b hb
      rw [List.append_nil] at h
      refine h ((c :: run).getLast (by simp)) (List.getLast?_eq_some_getLast _) b hb k ?_
      rcases List.mem_cons.mp ((c :: run).getLast_mem (by simp)) with heq | hmem
      · rwa [heq]
      · exact markOf?_of_runsOn (hrun _ hmem)

theorem Lexed.flatMap_text {cs : List Char} {ts : List Piece} (h : Lexed cs ts) :
    ts.flatMap (·.2.toList) = cs := by
  induction h with
  | nil => rfl
  | cons _ _ _ _ ih => simp [ih]

/-- A token by itself: a first character of its mark, and more that go on with it. -/
def IsToken (t : Piece) : Prop :=
  ∃ c run, t.2.toList = c :: run ∧ markOf? c = some t.1 ∧ ∀ d ∈ run, runsOn t.1 d = true

theorem Lexed.isToken {cs : List Char} {ts : List Piece} (h : Lexed cs ts) :
    ∀ t ∈ ts, IsToken t := by
  induction h with
  | nil => simp
  | cons hk hrun _ _ ih =>
    exact List.forall_mem_cons.mpr ⟨⟨_, _, String.toList_ofList, hk, hrun⟩, ih⟩

theorem IsToken.mark {t : Piece} (h : IsToken t) : ∀ c ∈ t.2.toList, markOf? c = some t.1 := by
  obtain ⟨c, run, htext, hk, hrun⟩ := h
  rw [htext, List.forall_mem_cons]
  exact ⟨hk, fun d hd => markOf?_of_runsOn (hrun d hd)⟩

/-! ## Delimiters -/

def Pair.left : Pair → Char
  | .bracket => '['
  | .brace => '\x7b'

def Pair.right : Pair → Char
  | .bracket => ']'
  | .brace => '\x7d'

/-- The character of a delimiter. -/
def Mark.char? : Mark → Option Char
  | .opening p => some p.left
  | .closing p => some p.right
  | .slash => some '/'
  | _ => none

theorem eq_of_markOf? {k : Mark} {c d : Char} (hd : k.char? = some d) (h : markOf? c = some k) :
    c = d := by
  rw [markOf?] at h
  split_ifs at h with _ _ _ _ hleft hright
  · cases h
    cases hd
  · cases h
    cases hd
  · cases h
    cases hd
  · cases h
    cases hd
  · cases h
    cases hd
    exact beq_iff_eq.mp hleft
  · cases h
    cases hd
    exact beq_iff_eq.mp hright
  · simp only [lexer] at h
    split at h <;> cases h <;> cases hd <;> rfl

theorem runsOn_delimiter {k : Mark} {d : Char} (hd : k.char? = some d) (c : Char) :
    runsOn k c = false := by
  cases k with
  | opening p => rfl
  | closing p => rfl
  | slash => rfl
  | _ => cases hd

theorem runsOn_of_markOf? {k : Mark} {c : Char} (hk : k.char? = none) (h : markOf? c = some k) :
    runsOn k c = true := by
  rw [markOf?] at h
  split_ifs at h with hnewline hother hspace hword
  · cases h
    exact hnewline
  · cases h
    exact hother
  · cases h
    exact hspace
  · cases h
    exact hword
  · cases h
    cases hk
  · cases h
    cases hk
  · simp only [lexer] at h
    split at h <;> cases h <;> cases hk

theorem markOf?_char {k : Mark} {d : Char} (hd : k.char? = some d) : markOf? d = some k := by
  cases k with
  | opening p => cases hd; cases p <;> rfl
  | closing p => cases hd; cases p <;> rfl
  | slash => cases hd; rfl
  | _ => cases hd

theorem markOf?_left (p : Pair) : markOf? p.left = some (.opening p) := markOf?_char rfl

theorem markOf?_right (p : Pair) : markOf? p.right = some (.closing p) := markOf?_char rfl

/-- A delimiter is a token of one character. -/
theorem IsToken.delimiter {k : Mark} {text : String} {d : Char} (h : IsToken (k, text))
    (hd : k.char? = some d) : text.toList = [d] := by
  obtain ⟨c, run, htext, hk, hrun⟩ := h
  obtain rfl := eq_of_markOf? hd hk
  have hnil : run = [] := by
    refine List.eq_nil_iff_forall_not_mem.mpr fun b hb => ?_
    have hgoes : runsOn k b = true := hrun b hb
    rw [runsOn_delimiter hd] at hgoes
    cases hgoes
  rw [htext, hnil]

/-- The text starts with a delimiter, or it is empty. -/
def Delimited (v : List Char) : Prop := ∀ d ∈ v.head?, ∃ k : Mark, k.char? = some d

/-- No token goes on into a delimiter. -/
theorem Delimited.apart {v : List Char} (h : Delimited v) (u : List Char) : Apart u v := by
  intro a _ d hd k _
  obtain ⟨k', hk'⟩ := h d hd
  by_contra hgoes
  have hmark := markOf?_of_runsOn (by simpa using hgoes : runsOn k d = true)
  cases (markOf?_char hk').symm.trans hmark
  exact hgoes (runsOn_delimiter hk' d)

/-- No delimiter goes on. -/
theorem apart_delimiter {k : Mark} {d : Char} (hd : k.char? = some d) (v : List Char) :
    Apart [d] v := by
  intro a ha b _ k' hk'
  obtain rfl : d = a := by simpa using ha
  cases (markOf?_char hd).symm.trans hk'
  exact runsOn_delimiter hd b

/-- Texts without a common mark are apart. -/
theorem apart_of_ne {u v : List Char} (h : ∀ a ∈ u, ∀ b ∈ v.head?, markOf? a ≠ markOf? b) :
    Apart u v := by
  intro a ha b hb k hk
  by_contra hgoes
  refine h a (List.mem_of_mem_getLast? ha) b hb (hk.trans ?_)
  exact (markOf?_of_runsOn (by simpa using hgoes)).symm

end Statechart.Label.Parts
