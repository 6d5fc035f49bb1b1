import Statechart.Proofs.Trace.Reading

/-!
Finding inputs in the text that declares them. Variables are searched for as parts of the text,
so the name of an input is found too early if it is part of the name or of the type of an input
that is declared before. If no name is (`Apart`), all types are found, and in each type the places
grow in the order of the declarations; and only then (`located_iff_apart`).
-/

namespace Statechart.Trace

open Text (IsWord isWord)

variable {patterns : Patterns} {e : Option String × VarType}
  {inputs : List (Option String × VarType)} {name rest : List Char}

/-- An input as it is declared, without the end of the line. -/
def entry (e : Option String × VarType) : List Char :=
  e.2.name.toList ++ ' ' :: (worded e.1).toList

/-- The declarations of inputs. -/
def declarations (inputs : List (Option String × VarType)) : List Char :=
  inputs.flatMap fun e => entry e ++ [';', '\n']

/-- An input whose name is a word and whose type is one of two. -/
structure Proper (e : Option String × VarType) : Prop where
  name : IsWord (worded e.1).toList
  type : e.2 = .byte ∨ e.2 = .int

instance (e : Option String × VarType) : Decidable (Proper e) :=
  decidable_of_iff (IsWord (worded e.1).toList ∧ (e.2 = .byte ∨ e.2 = .int))
    ⟨fun h => ⟨h.1, h.2⟩, fun h => ⟨h.name, h.type⟩⟩

theorem Proper.type_isWord (he : Proper e) : IsWord e.2.name.toList := by
  rcases he.type with h | h
  · rw [h]
    decide
  · rw [h]
    decide

theorem Proper.trim_type (he : Proper e) :
    Text.trim (e.2.name.toList ++ [' ']) = e.2.name.toList :=
  Text.trim_concat (fun c hc => he.type_isWord.not_blank (List.mem_of_mem_head? hc))
    (fun c hc => he.type_isWord.not_blank (List.mem_of_mem_getLast? hc)) (by decide)

theorem Proper.type_eq {e₀ : Option String × VarType} (he₀ : Proper e₀) (he : Proper e)
    (h : e₀.2.name = e.2.name) : e₀.2 = e.2 := by
  rcases he₀.type with h₀ | h₀ <;> rcases he.type with h₁ | h₁ <;> rw [h₀, h₁] at h ⊢
  all_goals exact absurd h (by decide)

/-- No type is the beginning of a type with more behind it. -/
theorem Proper.not_type_of_type {e₀ : Option String × VarType} (he : Proper e) (he₀ : Proper e₀)
    (h : e.2.name.toList ++ (worded e.1).toList <+: e₀.2.name.toList) : False := by
  have hprefix : e.2.name.toList <+: e₀.2.name.toList := (List.prefix_append ..).trans h
  have hsame : e.2.name.toList = e₀.2.name.toList := by
    rcases he.type with h₁ | h₁ <;> rcases he₀.type with h₀ | h₀ <;> rw [h₁, h₀] at hprefix ⊢
    all_goals exact absurd hprefix (by decide)
  have hpos := List.length_pos_of_ne_nil he.name.1
  have hlength := h.length_le
  rw [List.length_append, hsame] at hlength
  omega

/-- Every input is found with its type, and inputs of one type are found in their order. -/
structure Located (patterns : Patterns) (model : List Char)
    (inputs : List (Option String × VarType)) : Prop where
  types : ∀ e ∈ inputs, typeIn patterns model (worded e.1) = .ok e.2.name
  places : inputs.Pairwise fun e e' =>
    e.2 = e'.2 → place model (worded e.1) < place model (worded e'.1)

/-- No name occurs in the declaration of an input before it. -/
def Apart (inputs : List (Option String × VarType)) : Prop :=
  inputs.Pairwise fun e e' => ¬ (worded e'.1).toList <:+: entry e

instance (inputs : List (Option String × VarType)) : Decidable (Apart inputs) :=
  inferInstanceAs (Decidable (List.Pairwise _ _))

/-! ## The first declaration -/

theorem declarations_cons (e : Option String × VarType) (inputs : List (Option String × VarType))
    (rest : List Char) :
    declarations (e :: inputs) ++ rest =
      (entry e ++ [';']) ++ '\n' :: (declarations inputs ++ rest) := by
  simp [declarations]

theorem Proper.not_mem_entry (he : Proper e) {c : Char} (hc : isWord c = false) (hblank : c ≠ ' ') :
    c ∉ entry e := by
  have htype := he.type_isWord.not_mem hc
  have hname := he.name.not_mem hc
  simp only [entry, List.mem_append, List.mem_cons, not_or]
  exact ⟨htype, hblank, hname⟩

theorem infix_entry (e : Option String × VarType) : (worded e.1).toList <:+: entry e :=
  (List.suffix_append_of_suffix (List.suffix_cons ..)).isInfix

theorem infix_line (hname : IsWord name) : name <:+: entry e ++ [';'] ↔ name <:+: entry e := by
  rw [Text.infix_append_cons (hname.not_mem (by decide))]
  constructor
  · rintro (h | h)
    · exact h
    · exact absurd (List.infix_nil.mp h) hname.1
  · exact .inl

/-- The place of a word on a line, without the line end. -/
def typeOn? (x : String) (l : List Char) : Option (List Char) :=
  Text.beforeLast? x.toList (l.filter (· != '\n'))

/-- Words find themselves. -/
theorem front_word {x : String} (hx : IsWord x.toList) (text : List Char) :
    patterns.front x text = frontOf x text := by
  have hspecials : specials.all (!isWord ·) = true := by decide +kernel
  apply patterns.front_plain
  intro c hc hspecial
  have hc' := List.all_eq_true.mp hspecials c hspecial
  exact hx.not_mem (by simpa using hc') hc

theorem typeIn_eq {x : String} (hx : IsWord x.toList) (model : List Char) :
    typeIn patterns model x =
      match (Text.lines model).findSome? (typeOn? x) with
      | some cs => .ok (String.ofList (Text.trim cs))
      | none => .error .malformedLine := by
  have hne : x.isEmpty = false := by
    rw [Bool.eq_false_iff, ne_eq, String.isEmpty_iff]
    rintro rfl
    exact hx.1 rfl
  rw [typeIn, front_word hx]
  unfold frontOf typeOn?
  rw [hne, Bool.false_and]
  generalize (Text.lines model).findSome? _ = hit
  cases hit with
  | none => rfl
  | some cs => rfl

theorem lines_first (he : Proper e) :
    Text.lines ((entry e ++ [';']) ++ '\n' :: rest) =
      ((entry e ++ [';']) ++ ['\n']) :: Text.lines rest := by
  apply Text.lines_append
  have hentry := he.not_mem_entry (c := '\n') (by decide) (by decide)
  simp [hentry]

theorem typeOn?_first (he : Proper e) (x : String) :
    typeOn? x ((entry e ++ [';']) ++ ['\n']) = Text.beforeLast? x.toList (entry e ++ [';']) := by
  have hentry : '\n' ∉ entry e ++ [';'] := by
    have h := he.not_mem_entry (c := '\n') (by decide) (by decide)
    simp [h]
  have hfilter : (entry e ++ [';'] ++ ['\n']).filter (· != '\n') = entry e ++ [';'] := by
    rw [List.filter_append, List.filter_eq_self.mpr]
    · simp
    · intro c hc
      have hne : c ≠ '\n' := fun h => hentry (h ▸ hc)
      simpa using hne
  rw [typeOn?, hfilter]

/-- The type of a variable is what stands in front of it on the first line that has it. -/
theorem typeIn_first (he : Proper e) {x : String} (hx : IsWord x.toList) {b : List Char}
    (h : Text.beforeLast? x.toList (entry e ++ [';']) = some b) :
    typeIn patterns ((entry e ++ [';']) ++ '\n' :: rest) x = .ok (String.ofList (Text.trim b)) := by
  rw [typeIn_eq hx, lines_first he, List.findSome?_cons, typeOn?_first he, h]

theorem typeIn_skip (he : Proper e) {x : String} (hx : IsWord x.toList)
    (h : ¬ x.toList <:+: entry e) :
    typeIn patterns ((entry e ++ [';']) ++ '\n' :: rest) x = typeIn patterns rest x := by
  have hnone : Text.beforeLast? x.toList (entry e ++ [';']) = none := by
    rwa [Text.beforeLast?_eq_none, infix_line hx]
  rw [typeIn_eq hx, typeIn_eq hx, lines_first he, List.findSome?_cons, typeOn?_first he, hnone]

/-- A variable that is declared first is found there, with its type. -/
theorem typeIn_self (he : Proper e) :
    typeIn patterns ((entry e ++ [';']) ++ '\n' :: rest) (worded e.1) = .ok e.2.name := by
  have hword := Text.beforeLast?_word he.name.1 (he.name.not_mem (c := ';') (by decide))
  have hlast := Text.beforeLast?_append hword (e.2.name.toList ++ [' '])
  have hline : (e.2.name.toList ++ [' ']) ++ ((worded e.1).toList ++ [';']) = entry e ++ [';'] := by
    simp [entry]
  rw [hline, List.append_nil] at hlast
  rw [typeIn_first he he.name hlast, he.trim_type, String.ofList_toList]

theorem place_self (he : Proper e) :
    place ((entry e ++ [';']) ++ '\n' :: rest) (worded e.1) < (entry e).length := by
  obtain ⟨b, hb⟩ := Text.exists_before? (infix_entry e)
  have hlonger := Text.before?_append hb ([';'] ++ '\n' :: rest)
  rw [← List.append_assoc] at hlonger
  have hlength := (Text.before?_occurs hb).length_le
  have hpos := List.length_pos_of_ne_nil he.name.1
  rw [place, hlonger]
  simp only [List.length_append] at hlength
  simp only [Option.map_some, Option.getD_some]
  omega

theorem place_skip {x : String} (hx : IsWord x.toList) (h : ¬ x.toList <:+: entry e)
    (hrest : x.toList <:+: rest) :
    place ((entry e ++ [';']) ++ '\n' :: rest) x = (entry e).length + 2 + place rest x := by
  obtain ⟨b, hb⟩ := Text.exists_before? hrest
  have hskip := Text.before?_skip hx.1 (hx.not_mem (c := '\n') (by decide))
    (mt (infix_line hx).mp h) rest
  rw [place, place, hskip, hb]
  simp only [Option.map_some, Option.getD_some, List.length_append, List.length_cons,
    List.length_nil]
  omega

/-- What a name starts with is not found behind it. -/
theorem place_le_of_start {x y : String} {model : List Char} (h : x.toList <+: y.toList)
    (hy : y.toList <:+: model) : place model x ≤ place model y := by
  obtain ⟨b, hb⟩ := Text.exists_before? hy
  obtain ⟨a, ha, hle⟩ := Text.before?_le_of_start h hb
  rw [place, place, ha, hb]
  exact hle

/-! ## All declarations -/

theorem infix_declarations (he : e ∈ inputs) (rest : List Char) :
    (worded e.1).toList <:+: declarations inputs ++ rest := by
  have hline : entry e ++ [';', '\n'] <:+: declarations inputs := by
    rw [declarations, List.flatMap_def]
    exact List.infix_of_mem_flatten (List.mem_map_of_mem he)
  exact (((infix_entry e).trans (List.prefix_append ..).isInfix).trans hline).trans
    (List.prefix_append ..).isInfix

/-- Some type is found for every input. -/
theorem exists_typeIn (hinputs : ∀ e ∈ inputs, Proper e) (he : e ∈ inputs) (rest : List Char) :
    ∃ type, typeIn patterns (declarations inputs ++ rest) (worded e.1) = .ok type := by
  induction inputs with
  | nil => cases he
  | cons e₀ inputs ih =>
    have he₀ := hinputs e₀ (List.mem_cons_self ..)
    have hname := (hinputs e he).name
    rw [declarations_cons]
    by_cases hfirst : (worded e.1).toList <:+: entry e₀
    · obtain ⟨b, hb⟩ := Text.exists_beforeLast? ((infix_line hname).mpr hfirst)
      exact ⟨_, typeIn_first he₀ hname hb⟩
    · rw [typeIn_skip he₀ hname hfirst]
      rcases List.mem_cons.mp he with rfl | he
      · exact absurd (infix_entry e) hfirst
      · exact ih (fun e' he' => hinputs e' (List.mem_cons_of_mem _ he')) he

/-- Behind a declaration that has none of the names, inputs are found as if it were not there. -/
theorem located_cons_iff {e₀ : Option String × VarType} (he₀ : Proper e₀)
    (hinputs : ∀ e ∈ inputs, Proper e)
    (hapart : ∀ e ∈ inputs, ¬ (worded e.1).toList <:+: entry e₀) :
    Located patterns (declarations (e₀ :: inputs) ++ rest) (e₀ :: inputs) ↔
      Located patterns (declarations inputs ++ rest) inputs := by
  have htypes : ∀ e ∈ inputs, typeIn patterns (declarations (e₀ :: inputs) ++ rest) (worded e.1) =
      typeIn patterns (declarations inputs ++ rest) (worded e.1) := by
    intro e he
    rw [declarations_cons, typeIn_skip he₀ (hinputs e he).name (hapart e he)]
  have hplaces : ∀ e ∈ inputs, place (declarations (e₀ :: inputs) ++ rest) (worded e.1) =
      (entry e₀).length + 2 + place (declarations inputs ++ rest) (worded e.1) := by
    intro e he
    rw [declarations_cons,
      place_skip (hinputs e he).name (hapart e he) (infix_declarations he rest)]
  constructor
  · rintro ⟨hall, hgrow⟩
    refine ⟨fun e he => ?_,
      (List.pairwise_cons.mp hgrow).2.imp_of_mem fun {e e'} he he' h htype => ?_⟩
    · rw [← htypes e he]
      exact hall e (List.mem_cons_of_mem _ he)
    · have hlt := h htype
      rw [hplaces e he, hplaces e' he'] at hlt
      omega
  · rintro ⟨hall, hgrow⟩
    refine ⟨fun e he => ?_, List.pairwise_cons.mpr ⟨fun e he _ => ?_,
      hgrow.imp_of_mem fun {e e'} he he' h htype => ?_⟩⟩
    · rcases List.mem_cons.mp he with rfl | he
      · rw [declarations_cons, typeIn_self he₀]
      · rw [htypes e he]
        exact hall e he
    · have hself : place (declarations (e₀ :: inputs) ++ rest) (worded e₀.1) <
          (entry e₀).length := by
        rw [declarations_cons]
        exact place_self he₀
      rw [hplaces e he]
      omega
    · have hlt := h htype
      rw [hplaces e he, hplaces e' he']
      omega

/-- A name that is part of an earlier declaration is found there, and not as it is declared: with
another type, or not behind the earlier input. -/
theorem not_infix_of_located {e₀ : Option String × VarType} (he₀ : Proper e₀) (he : Proper e)
    (htype : typeIn patterns ((entry e₀ ++ [';']) ++ '\n' :: rest) (worded e.1) = .ok e.2.name)
    (hplace : e₀.2 = e.2 → place ((entry e₀ ++ [';']) ++ '\n' :: rest) (worded e₀.1) <
      place ((entry e₀ ++ [';']) ++ '\n' :: rest) (worded e.1)) :
    ¬ (worded e.1).toList <:+: entry e₀ := by
  intro hinfix
  obtain ⟨b, hb⟩ := Text.exists_beforeLast? ((infix_line he.name).mpr hinfix)
  rw [typeIn_first he₀ he.name hb, Except.ok.injEq] at htype
  have htrim : Text.trim b = e.2.name.toList := by
    rw [← htype, String.toList_ofList]
  have hoccurs := Text.beforeLast?_occurs hb
  rw [entry, List.append_assoc, List.cons_append] at hoccurs
  rcases Text.place_append_cons (he.name.not_mem (by decide)) _ _ _ hoccurs with
    hearly | ⟨b', rfl, hlate⟩
  · -- in the word of a type, only a part of that word stands before it
    have hblank : ∀ c ∈ b, Text.isBlank c = false := fun c hc =>
      he₀.type_isWord.not_blank (hearly.subset (List.mem_append_left _ hc))
    rw [Text.trim_eq_self (fun c hc => hblank c (List.mem_of_mem_head? hc))
      (fun c hc => hblank c (List.mem_of_mem_getLast? hc))] at htrim
    rw [htrim] at hearly
    exact he.not_type_of_type he₀ hearly
  · by_cases hb' : b' = []
    · -- at the start of a name, it is found with the type of that input, but not behind it
      subst hb'
      rw [he₀.trim_type] at htrim
      have hsame : e₀.2 = e.2 := he₀.type_eq he (String.toList_inj.mp htrim)
      have hstart := Text.prefix_of_prefix_append_cons (he.name.not_mem (by decide)) _ _ hlate
      have hthere : (worded e₀.1).toList <:+: (entry e₀ ++ [';']) ++ '\n' :: rest :=
        ((infix_entry e₀).trans (List.prefix_append ..).isInfix).trans
          (List.prefix_append ..).isInfix
      exact Nat.not_lt_of_le (place_le_of_start hstart hthere) (hplace hsame)
    · -- later in a name, there is a blank in what stands before it
      have hlast : ∀ c ∈ b', Text.isBlank c = false := by
        intro c hc
        rcases List.mem_append.mp (hlate.subset (List.mem_append_left _ hc)) with hc | hc
        · exact he₀.name.not_blank hc
        · rw [List.mem_singleton.mp hc]
          decide
      have hkept : Text.trim (e₀.2.name.toList ++ ' ' :: b') = e₀.2.name.toList ++ ' ' :: b' := by
        apply Text.trim_eq_self
        · intro c hc
          rw [List.head?_append_of_ne_nil _ he₀.type_isWord.1] at hc
          exact he₀.type_isWord.not_blank (List.mem_of_mem_head? hc)
        · intro c hc
          rw [List.getLast?_append_cons, List.getLast?_cons_of_ne_nil hb'] at hc
          exact hlast c (List.mem_of_mem_getLast? hc)
      have hmem : ' ' ∈ e.2.name.toList := by
        rw [← htrim, hkept]
        exact List.mem_append_right _ (List.mem_cons_self ..)
      exact he.type_isWord.not_mem (by decide) hmem

/-- Inputs are found as they are declared if no name occurs in a declaration before its own. -/
theorem located_iff_apart (patterns : Patterns) (hinputs : ∀ e ∈ inputs, Proper e)
    (rest : List Char) :
    Located patterns (declarations inputs ++ rest) inputs ↔ Apart inputs := by
  induction inputs with
  | nil => exact ⟨fun _ => .nil, fun _ => ⟨fun e he => (by cases he), .nil⟩⟩
  | cons e₀ inputs ih =>
    have he₀ := hinputs e₀ (List.mem_cons_self ..)
    have hrest : ∀ e ∈ inputs, Proper e := fun e he => hinputs e (List.mem_cons_of_mem _ he)
    constructor
    · intro h
      have hapart : ∀ e ∈ inputs, ¬ (worded e.1).toList <:+: entry e₀ := by
        intro e he
        have htype := h.types e (List.mem_cons_of_mem _ he)
        have hplace := (List.pairwise_cons.mp h.places).1 e he
        rw [declarations_cons] at htype hplace
        exact not_infix_of_located he₀ (hrest e he) htype hplace
      have hbehind := (located_cons_iff he₀ hrest hapart).mp h
      exact List.pairwise_cons.mpr ⟨hapart, (ih hrest).mp hbehind⟩
    · intro h
      obtain ⟨hapart, h⟩ := List.pairwise_cons.mp h
      exact (located_cons_iff he₀ hrest hapart).mpr ((ih hrest).mpr h)

end Statechart.Trace
