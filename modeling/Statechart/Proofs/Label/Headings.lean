import Mathlib.Data.List.TakeWhile
import Statechart.Proofs.Label.Sections
import Statechart.Proofs.Text.Places

/-!
State labels without a heading. The text behind the name is meant as entry actions if it does not
start with a heading, as if `en:` stood in front of it (`withHeading`). Whether it starts with a
heading is decided by its first characters, and not by its first word: a word that merely begins
like a heading is taken for one, and the label is refused (`stateOutcome_unheaded`). So a label
without a heading says what it says with `en:` in front of its body exactly if its first word does
not begin like a heading, or nothing can be made of it in either way (`unheaded_is_entry_iff`).
-/

namespace Statechart.Label

/-! ## Names and bodies -/

/-- What stands behind the name and the character that ends it. -/
def behindName (cs : List Char) : List Char := cs.drop ((nameChars cs).length + 1)

/-- The body of a state label: what stands behind its name, without the blanks around it. -/
def bodyChars (label : String) : List Char := Text.trim (behindName label.toList)

/-- The label with `en:` directly in front of its body. -/
def withHeading (label : String) : String :=
  let cs := label.toList
  String.ofList (cs.take ((nameChars cs).length + 1) ++
    ((behindName cs).takeWhile Text.isBlank ++ "en:".toList ++
      (behindName cs).dropWhile Text.isBlank))

/-- A name ends at a slash or at the end of the line. -/
def EndsName (c : Char) : Prop := c = '/' ∨ c = '\n'

theorem nameChars_append {name : List Char} (hname : ∀ c ∈ name, ¬ EndsName c) {sep : Char}
    (hsep : EndsName sep) (rest : List Char) : nameChars (name ++ sep :: rest) = name := by
  have hline : ∀ c ∈ name, (c != '\n') = true := fun c hc =>
    bne_iff_ne.mpr fun h => hname c hc (.inr h)
  have hslash : ∀ c ∈ name, (c != '/') = true := fun c hc =>
    bne_iff_ne.mpr fun h => hname c hc (.inl h)
  rcases hsep with rfl | rfl
  · rw [nameChars, List.takeWhile_append_of_pos hline, List.takeWhile_cons_of_pos (by decide),
      if_pos (by simp), List.takeWhile_append_of_pos hslash, List.takeWhile_cons_of_neg (by decide),
      List.append_nil]
  · have hnone : name.contains '/' = false := by
      refine Bool.eq_false_iff.mpr fun h => ?_
      exact hname '/' (List.contains_iff_mem.mp h) (.inl rfl)
    rw [nameChars, List.takeWhile_append_of_pos hline, List.takeWhile_cons_of_neg (by decide),
      List.append_nil, hnone, if_neg Bool.false_ne_true]

/-- A label with something behind its name is the name, the character that ends it, and the rest. -/
theorem exists_name {cs : List Char} (h : behindName cs ≠ []) :
    ∃ name sep, (∀ c ∈ name, ¬ EndsName c) ∧ EndsName sep ∧ cs = name ++ sep :: behindName cs := by
  suffices hsplit : ∃ name sep rest, (∀ c ∈ name, ¬ EndsName c) ∧ EndsName sep ∧
      cs = name ++ sep :: rest by
    obtain ⟨name, sep, rest, hname, hsep, rfl⟩ := hsplit
    refine ⟨name, sep, hname, hsep, ?_⟩
    rw [behindName, nameChars_append hname hsep, List.drop_length_add_append]
    rfl
  have hline := List.takeWhile_append_dropWhile (p := (· != '\n')) (l := cs)
  have hfirst : ∀ c ∈ cs.takeWhile (· != '\n'), c ≠ '\n' := by
    intro c hc
    simpa using List.mem_takeWhile_imp hc
  by_cases hslash : '/' ∈ cs.takeWhile (· != '\n')
  · obtain ⟨name, more, hsplit, hname⟩ := List.eq_append_cons_of_mem hslash
    rw [hsplit] at hline hfirst
    refine ⟨name, '/', more ++ cs.dropWhile (· != '\n'), ?_, .inl rfl, ?_⟩
    · rintro c hc (rfl | rfl)
      · exact hname hc
      · exact hfirst '\n' (List.mem_append_left _ hc) rfl
    · exact hline.symm.trans (by simp)
  · -- the line has no slash, so there is a line end, or nothing stands behind the name
    cases hrest : cs.dropWhile (· != '\n') with
    | nil =>
      rw [hrest, List.append_nil] at hline
      have hname : nameChars cs = cs := by
        rw [hline] at hslash
        simp only [nameChars, hline, List.contains_iff_mem, if_neg hslash]
      exact absurd (by simp [behindName, hname]) h
    | cons c rest =>
      have hc := List.head?_dropWhile_not (· != '\n') cs
      rw [hrest] at hc hline
      obtain rfl : c = '\n' := by simpa using hc
      refine ⟨_, '\n', rest, ?_, .inr rfl, hline.symm⟩
      rintro c hc (rfl | rfl)
      · exact hslash hc
      · exact hfirst '\n' hc rfl

theorem behindName_ne_nil {label : String} (h : bodyChars label ≠ []) :
    behindName label.toList ≠ [] := by
  intro hnil
  rw [bodyChars, hnil] at h
  exact h rfl

/-- A heading in front of the body does not change the name. -/
theorem nameChars_withHeading {label : String} (h : bodyChars label ≠ []) :
    nameChars (withHeading label).toList = nameChars label.toList := by
  obtain ⟨name, sep, hname, hsep, hlabel⟩ := exists_name (behindName_ne_nil h)
  have hfront : label.toList.take ((nameChars label.toList).length + 1) = name ++ [sep] := by
    rw [hlabel, nameChars_append hname hsep, List.append_cons]
    exact List.take_left' (by simp)
  rw [withHeading, String.toList_ofList, hfront, List.append_assoc, List.singleton_append,
    nameChars_append hname hsep, hlabel, nameChars_append hname hsep]

theorem behindName_withHeading {label : String} (h : bodyChars label ≠ []) :
    behindName (withHeading label).toList =
      (behindName label.toList).takeWhile Text.isBlank ++ "en:".toList ++
        (behindName label.toList).dropWhile Text.isBlank := by
  obtain ⟨name, sep, hname, hsep, hlabel⟩ := exists_name (behindName_ne_nil h)
  have hlength : (nameChars label.toList).length + 1 ≤ label.toList.length := by
    rw [hlabel, nameChars_append hname hsep, List.length_append, List.length_cons]
    omega
  have hfront : (label.toList.take ((nameChars label.toList).length + 1)).length =
      (nameChars label.toList).length + 1 := by
    rw [List.length_take, Nat.min_eq_left hlength]
  rw [behindName, nameChars_withHeading h, ← hfront, withHeading, String.toList_ofList]
  exact List.drop_left' rfl

/-- Text that is put directly in front of a text is put in front of the trimmed text. -/
theorem trim_inserted {w : List Char} (hfirst : w.head?.any Text.isBlank = false)
    (hlast : w.getLast?.any Text.isBlank = false) (hw : w ≠ []) (cs : List Char) :
    Text.trim (cs.takeWhile Text.isBlank ++ w ++ cs.dropWhile Text.isBlank) =
      w ++ Text.trim cs := by
  have hfront : (w ++ cs.dropWhile Text.isBlank).dropWhile Text.isBlank =
      w ++ cs.dropWhile Text.isBlank :=
    Text.dropWhile_of_head
      (by simpa [List.head?_append_of_ne_nil _ hw, Option.any_eq_false] using hfirst)
  have hback : w.reverse.dropWhile Text.isBlank = w.reverse :=
    Text.dropWhile_of_head (by simpa [List.head?_reverse, Option.any_eq_false] using hlast)
  rw [Text.trim, Text.trim, Text.trimBy, Text.trimBy, List.append_assoc,
    List.dropWhile_append_of_pos fun c hc => List.mem_takeWhile_imp hc, hfront,
    List.reverse_append, List.dropWhile_append, hback]
  split
  · next hempty => simp [List.isEmpty_iff.mp hempty]
  · rw [List.reverse_append, List.reverse_reverse]

theorem bodyChars_withHeading {label : String} (h : bodyChars label ≠ []) :
    bodyChars (withHeading label) = "en:".toList ++ bodyChars label := by
  rw [bodyChars, behindName_withHeading h]
  exact trim_inserted (by decide) (by decide) (by decide) _

/-! ## Seeming headings -/

/-- A text seems to start with a heading if it begins with the letters of one. -/
def Seeming (cs : List Char) : Prop := ∃ w ∈ headingStarts, w.toList <+: cs

theorem any_isPrefixOf_iff {cs : List Char} :
    headingStarts.any (·.toList.isPrefixOf cs) = true ↔ Seeming cs := by
  simp [Seeming, List.isPrefixOf_iff_prefix]

theorem bodyOf_of_seeming {label : String} (h : Seeming (bodyChars label)) :
    bodyOf label = String.ofList (bodyChars label) := by
  have hany := any_isPrefixOf_iff.mpr h
  rw [← String.toList_ofList (l := bodyChars label)] at hany
  simp only [bodyOf]
  exact if_pos (Bool.or_eq_true_iff.mpr (.inr hany))

theorem bodyOf_of_not_seeming {label : String} (h : bodyChars label ≠ [])
    (hnot : ¬ Seeming (bodyChars label)) :
    bodyOf label = "en:" ++ String.ofList (bodyChars label) := by
  have hany : headingStarts.any (·.toList.isPrefixOf (bodyChars label)) = false :=
    Bool.eq_false_iff.mpr fun hany => hnot (any_isPrefixOf_iff.mp hany)
  have hempty : (String.ofList (bodyChars label) == "") = false :=
    beq_eq_false_iff_ne.mpr fun he => h (by simpa using congrArg String.toList he)
  rw [← String.toList_ofList (l := bodyChars label)] at hany
  simp only [bodyOf]
  exact if_neg (Bool.eq_false_iff.mp (Bool.or_eq_false_iff.mpr ⟨hempty, hany⟩))

theorem bodyOf_withHeading {label : String} (h : bodyChars label ≠ []) :
    bodyOf (withHeading label) = "en:" ++ String.ofList (bodyChars label) := by
  have hbody := bodyChars_withHeading h
  have hseeming : Seeming (bodyChars (withHeading label)) := by
    rw [hbody]
    exact ⟨"en", by decide, ':' :: bodyChars label, rfl⟩
  rw [bodyOf_of_seeming hseeming, hbody, String.ofList_append, String.ofList_toList]

/-- Every word that may start a heading is among the beginnings. -/
theorem spelling_mem_headingStarts {k : Keyword} {p : Section.Position}
    (h : Section.Position.ofKeyword? k = some p) : k.spelling ∈ headingStarts := by
  cases k with
  | action w => cases w <;> decide
  | bind | on => decide
  | temporal w => cases h

/-- A word that starts no heading can not stand in front of a label body. -/
theorem next_outset_word {text : String} (h : text ∉ headingStarts) :
    Section.next ⟨[], .outset⟩ (Section.wordMark text, text) = none := by
  unfold Section.wordMark
  cases hk : Keyword.ofSpelling? text with
  | none => rfl
  | some k =>
    have hspelling : k.spelling = text := by simpa using List.find?_some hk
    cases hp : Section.Position.ofKeyword? k with
    | none =>
      show (Section.Position.ofKeyword? k).map (Section.State.mk []) = none
      rw [hp]
      rfl
    | some p => exact absurd (hspelling ▸ spelling_mem_headingStarts hp) h

/-- The first token of a text that seems to start with a heading is a word. -/
theorem match?_of_seeming {cs : List Char} (h : Seeming cs) :
    ∃ c rest, cs = c :: rest ∧ Section.lexer.match? cs =
      some ⟨some (Section.wordMark (String.ofList (cs.takeWhile Text.isWord))),
        cs.takeWhile Text.isWord, 0⟩ := by
  obtain ⟨w, hw, tail, rfl⟩ := h
  have hfirst : ∀ w ∈ headingStarts, w.toList.head?.any Text.isWord = true := by decide
  cases hchars : w.toList with
  | nil =>
    have hword := hfirst w hw
    rw [hchars] at hword
    cases hword
  | cons c rest =>
    have hc := hfirst w hw
    rw [hchars] at hc
    have hc : Text.isWord c = true := hc
    refine ⟨c, rest ++ tail, rfl, ?_⟩
    rw [List.cons_append, Lexer.match?_cons, List.takeWhile_cons_of_pos hc]
    simp only [Section.lexer, List.findSome?_cons, Rule.match?_run, hc, if_true]
    rfl

theorem read_of_seeming {cs : List Char} (hseeming : Seeming cs) {line : Nat}
    (hfirst : ∀ t ∈ (Section.lexer.scan line cs).tokens.head?, t.text ∉ headingStarts)
    (line' : Nat) (ss : List Section) : (Section.read line' (String.ofList cs)).1 ≠ .ok ss := by
  intro hread
  obtain ⟨c, rest, rfl, hmatch⟩ := match?_of_seeming hseeming
  rw [Section.read, String.toList_ofList, Reader.run_eq_ok Section.advances] at hread
  obtain ⟨ts, s, hcuts, hrun, -⟩ := hread
  obtain ⟨us, rfl, -⟩ := hcuts.of_kept rfl hmatch rfl
  have htokens := ((Section.lexer.cuts_scan line (c :: rest)).unique hcuts).1
  have hword : String.ofList ((c :: rest).takeWhile Text.isWord) ∉ headingStarts := by
    obtain ⟨t, ts, hts, ht, -⟩ := List.map_eq_cons_iff.mp htokens
    rw [hts] at hfirst
    have htext := hfirst t rfl
    rwa [show t.text = _ from congrArg Prod.snd ht] at htext
  obtain ⟨s₁, hnext, -⟩ := Option.bind_eq_some_iff.mp hrun
  rw [show Section.reader.start = ⟨[], .outset⟩ from rfl, next_outset_word hword] at hnext
  cases hnext

/-! ## Labels -/

/-- What a state label says and declares, if it can be read. -/
def stateOutcome (label : String) (ssid : Option String) (lines : Lines) :
    Option (StateLabel × Variables) :=
  ((readState label ssid).run.run lines).1.toOption

theorem read_of_runs {text : String} {ss : List Section} {lines lines' : Lines}
    (h : Runs (readSections text) lines ss lines') : (Section.read lines.state text).1 = .ok ss :=
  congrArg Prod.fst h

theorem stateOutcome_eq_none {label : String} {ssid : Option String} {lines : Lines}
    (h : ∀ line ss, (Section.read line (bodyOf label)).1 ≠ .ok ss) :
    stateOutcome label ssid lines = none := by
  cases hout : stateOutcome label ssid lines with
  | none => rfl
  | some r =>
    have hrun := runs_of_toOption hout
    unfold readState at hrun
    obtain ⟨ss, lines₁, hread, -⟩ := runs_bind.mp hrun
    exact absurd (read_of_runs hread) (h lines.state ss)

/-- A label without a heading is read as with `en:` in front of its body, unless it seems to start
with a heading; then it is refused. -/
theorem stateOutcome_unheaded {label : String} (h : bodyChars label ≠ []) (line : Nat)
    (hfirst : ∀ t ∈ (Section.lexer.scan line (bodyChars label)).tokens.head?,
      t.text ∉ headingStarts) (ssid : Option String) (lines : Lines) :
    (Seeming (bodyChars label) → stateOutcome label ssid lines = none) ∧
      (¬ Seeming (bodyChars label) →
        stateOutcome label ssid lines = stateOutcome (withHeading label) ssid lines) := by
  constructor
  · intro hseeming
    refine stateOutcome_eq_none fun line' ss => ?_
    rw [bodyOf_of_seeming hseeming]
    exact read_of_seeming hseeming hfirst line' ss
  · intro hnot
    have hname : stateName label = stateName (withHeading label) :=
      congrArg String.ofList (nameChars_withHeading h).symm
    have hbody : bodyOf label = bodyOf (withHeading label) :=
      (bodyOf_of_not_seeming h hnot).trans (bodyOf_withHeading h).symm
    have hread : readState label ssid = readState (withHeading label) ssid := by
      unfold readState
      rw [hname, hbody]
    rw [stateOutcome, hread, stateOutcome]

/-- A label whose body starts with no heading says the same as with `en:` in front of its body
exactly if the body does not begin with the letters of a heading, or the label can not be read with
`en:` either. -/
theorem unheaded_is_entry_iff {label : String} (hbody : bodyChars label ≠ []) (line : Nat)
    (hfirst : ∀ t ∈ (Section.lexer.scan line (bodyChars label)).tokens.head?,
      t.text ∉ headingStarts) (ssid : Option String) (lines : Lines) :
    stateOutcome label ssid lines = stateOutcome (withHeading label) ssid lines ↔
      (∀ w ∈ headingStarts, ¬ w.toList <+: bodyChars label) ∨
        stateOutcome (withHeading label) ssid lines = none := by
  obtain ⟨hrefused, hsame⟩ := stateOutcome_unheaded hbody line hfirst ssid lines
  have hnot : ¬ Seeming (bodyChars label) ↔
      ∀ w ∈ headingStarts, ¬ w.toList <+: bodyChars label := by
    simp [Seeming]
  rw [← hnot]
  constructor
  · intro heq
    by_cases hseeming : Seeming (bodyChars label)
    · exact .inr (heq.symm.trans (hrefused hseeming))
    · exact .inl hseeming
  · rintro (hseeming | hnone)
    · exact hsame hseeming
    · by_cases hseeming : Seeming (bodyChars label)
      · rw [hrefused hseeming, hnone]
      · exact hsame hseeming

/-- Entry actions without a heading, behind a name that ends at a slash. -/
theorem unheaded_is_entry_iff_lamp :
    withHeading "Lamp/\n x = 1; during: y++ " = "Lamp/\n en:x = 1; during: y++ " ∧
      stateOutcome "Lamp/\n x = 1; during: y++ " (some "1") .initial =
        some (⟨"Lamp", ["x = 1"], ["y = y + 1"], []⟩, .empty) ∧
      stateOutcome "Lamp/\n x = 1; during: y++ " (some "1") .initial =
        stateOutcome "Lamp/\n en:x = 1; during: y++ " (some "1") .initial := by
  have hlabel : withHeading "Lamp/\n x = 1; during: y++ " = "Lamp/\n en:x = 1; during: y++ " := by
    decide +kernel
  refine ⟨hlabel, by decide +kernel, ?_⟩
  rw [← hlabel]
  exact (unheaded_is_entry_iff (by decide +kernel) 1 (by decide +kernel) (some "1") .initial).mpr
    (.inl (by decide +kernel))

/-- The word `energy` starts no heading, but it begins like one, and the label is refused. -/
theorem energy_refused :
    bodyChars "Lamp\nenergy = 1" ≠ [] ∧
      (∀ t ∈ (Section.lexer.scan 1 (bodyChars "Lamp\nenergy = 1")).tokens.head?,
        t.text ∉ headingStarts) ∧
      withHeading "Lamp\nenergy = 1" = "Lamp\nen:energy = 1" ∧
      stateOutcome "Lamp\nenergy = 1" (some "1") .initial = none ∧
      stateOutcome "Lamp\nen:energy = 1" (some "1") .initial =
        some (⟨"Lamp", ["energy = 1"], [], []⟩, .empty) := by
  decide +kernel

end Statechart.Label
